import Galaris.Process.Bpmn.Accepted
import Mathlib.Logic.Relation

/-! What the acceptance of a workflow means.

Every level of an accepted workflow is sound (`Sound`): its flows make no cycle, each of its nodes lies on a path
from the one start to an end. Conversely a workflow that has no other fault (`Faultless`) is accepted unless a
cycle is reached from the start of one of its levels: the search from the start finds every cycle, for its path
holds no node twice and so never outgrows the graph (`walk_succeeds`). -/
namespace Galaris.Process.Bpmn

open Results Relation

variable {S : Services}

/-! ### Paths -/

/-- A flow leads from one node to the other. -/
def Leads (graph : Workflow) (source target : String) : Prop :=
    ∃ flow ∈ graph.flows, flow.source = source ∧ flow.target = target

abbrev Reaches (graph : Workflow) : String → String → Prop := ReflTransGen (Leads graph)

/-- A node that is on a cycle. -/
def OnCycle (graph : Workflow) (key : String) : Prop := TransGen (Leads graph) key key

/-- The workflow itself, and the bodies of its loops at any depth. -/
inductive Level : Workflow → Workflow → Prop
  | here (graph : Workflow) : Level graph graph
  | body {graph body level : Workflow} {node : Node} :
    node ∈ graph.nodes → node.body = some body → Level body level → Level graph level

/-- The control structure of one level. -/
structure Sound (graph : Workflow) : Prop where
  acyclic : ∀ key, ¬OnCycle graph key
  start : ∃ start, (graph.nodes.filter fun node => node.kind == .start) = [start] ∧
    ∀ node ∈ graph.nodes, Reaches graph start.id node.id
  finishes : ∀ node ∈ graph.nodes, ∃ final ∈ graph.nodes, final.kind = .end ∧ Reaches graph node.id final.id
  ends : ∀ node ∈ graph.nodes, node.kind = .end ↔ graph.outgoing node.id = []
  defaults : ∀ node ∈ graph.nodes, node.kind = .if →
    ((graph.outgoing node.id).filter fun flow => flow.condition.isNone).length = 1

theorem leads_iff {graph : Workflow} {source target : String} :
    Leads graph source target ↔ ∃ flow ∈ graph.outgoing source, flow.target = target := by
  constructor
  · rintro ⟨flow, hflow, hsource, htarget⟩
    exact ⟨flow, List.mem_filter.mpr ⟨hflow, beq_iff_eq.mpr hsource⟩, htarget⟩
  · rintro ⟨flow, hflow, htarget⟩
    obtain ⟨hmem, hsource⟩ := List.mem_filter.mp hflow
    exact ⟨flow, hmem, beq_iff_eq.mp hsource, htarget⟩

/-- A path goes down the order. -/
theorem Ranked.lt_of_path {graph : Workflow} {order : List String} (h : Ranked graph order)
    {a b : String} (hpath : TransGen (Leads graph) a b) :
    order.idxOf a < order.idxOf b := by
  induction hpath with
  | single hstep =>
    obtain ⟨flow, hflow, rfl, rfl⟩ := hstep
    exact h.flows flow hflow
  | tail _ hstep ih =>
    obtain ⟨flow, hflow, rfl, rfl⟩ := hstep
    exact ih.trans (h.flows flow hflow)

theorem Ranked.acyclic {graph : Workflow} {order : List String} (h : Ranked graph order)
    (key : String) : ¬OnCycle graph key :=
  fun hcycle => absurd (h.lt_of_path hcycle) (Nat.lt_irrefl _)

/-! ### The search finds only what it reaches -/

theorem foldlM_reached {graph : Workflow} {key : String}
    {step : List String → Flow → Except String (List String)} {flows : List Flow}
    (hflows : ∀ flow ∈ flows, Leads graph key flow.target)
    (hstep : ∀ flow ∈ flows, ∀ xs ys, step xs flow = .ok ys → ∀ found ∈ ys, found ∈ xs ∨
      Reaches graph flow.target found)
    {xs ys : List String} (h : flows.foldlM step xs = .ok ys) : ∀ found ∈ ys, found ∈ xs ∨ Reaches graph key found := by
  induction flows generalizing xs with
  | nil =>
    cases h
    exact fun _ hfound => .inl hfound
  | cons flow rest ih =>
    rw [List.foldlM_cons, bind_eq_ok] at h
    obtain ⟨mid, hfirst, hrest⟩ := h
    intro found hfound
    obtain hmid | hreach := ih (fun f hf => hflows f (List.mem_cons_of_mem _ hf))
      (fun f hf => hstep f (List.mem_cons_of_mem _ hf)) hrest found hfound
    · refine (hstep flow List.mem_cons_self xs mid hfirst found hmid).imp_right fun hreach => ?_
      exact .head (hflows flow List.mem_cons_self) hreach
    · exact .inr hreach

/-- What a search has finished it has reached. -/
theorem walk_reached {graph : Workflow} :
    ∀ {fuel : Nat} {active : List String} {key : String} {visited visited' : List String},
    walk graph fuel active key visited = .ok visited' → ∀ found ∈ visited', found ∈ visited ∨ Reaches graph key found
  | 0, _, _, _, _, h => by cases h
  | fuel + 1, active, key, visited, visited', h => by
    rw [walk] at h
    split at h
    · cases h
    split at h
    · cases h
      exact fun _ hfound => .inl hfound
    · simp only [bind_eq_ok, pure_eq_ok] at h
      obtain ⟨mid, hfold, rfl⟩ := h
      intro found hfound
      obtain rfl | hmid := List.mem_cons.mp hfound
      · exact .inr .refl
      · exact foldlM_reached (fun flow hflow => leads_iff.mpr ⟨flow, hflow, rfl⟩)
          (fun _ _ _ _ hstep => walk_reached hstep) hfold found hmid

/-! ### What is accepted is sound -/

section Accepted
variable {graph : Workflow}

theorem GraphOk.start_reaches (h : GraphOk S graph) : ∃ start,
    (graph.nodes.filter fun node => node.kind == .start) = [start] ∧ ∀ node ∈ graph.nodes,
    Reaches graph start.id node.id := by
  obtain ⟨start, hstart, order, hwalk, hall⟩ := h.start
  refine ⟨start, hstart, fun node hnode => ?_⟩
  obtain hnil | hreach := walk_reached hwalk node.id (hall node hnode)
  · exact absurd hnil List.not_mem_nil
  · exact hreach

theorem checkFlows_ends {node : Node} (h : checkFlows graph node = .ok ()) :
    node.kind = .end ↔ graph.outgoing node.id = [] := by
  simp only [checkFlows, bind_eq_ok, reject_eq_ok] at h
  obtain ⟨_, hends, -⟩ := h
  rw [Bool.or_eq_false_iff, Bool.and_eq_false_iff, Bool.and_eq_false_iff] at hends
  constructor
  · intro hend
    obtain hkind | hempty := hends.1
    · exact absurd hend (beq_eq_false_iff_ne.mp hkind)
    · exact List.isEmpty_iff.mp (by simpa using hempty)
  · intro hempty
    obtain hkind | hnonempty := hends.2
    · simpa using hkind
    · rw [hempty] at hnonempty
      exact absurd hnonempty (by decide)

theorem checkFlows_defaults {node : Node} (h : checkFlows graph node = .ok ()) (hif : node.kind = .if) :
    ((graph.outgoing node.id).filter fun flow => flow.condition.isNone).length = 1 := by
  simp only [checkFlows, bind_eq_ok, reject_eq_ok] at h
  obtain ⟨_, -, _, -, hbranches⟩ := h
  rw [if_pos (beq_iff_eq.mpr hif)] at hbranches
  simp only [bind_eq_ok, reject_eq_ok] at hbranches
  obtain ⟨_, -, hdefaults⟩ := hbranches
  simpa using hdefaults

/-- Going down the order from any node leads to an end. -/
theorem finishes_of_ranked {order : List String} (hranked : Ranked graph order)
    (htargets : ∀ flow ∈ graph.flows, ∃ target ∈ graph.nodes, target.id = flow.target)
    (hends : ∀ node ∈ graph.nodes, node.kind = .end ↔ graph.outgoing node.id = []) :
    ∀ (n : Nat) (node : Node), node ∈ graph.nodes → order.length - order.idxOf node.id = n →
      ∃ final ∈ graph.nodes, final.kind = .end ∧ Reaches graph node.id final.id := by
  intro n
  induction n using Nat.strong_induction_on with
  | _ n ih =>
    intro node hnode hn
    cases houtgoing : graph.outgoing node.id with
    | nil => exact ⟨node, hnode, (hends node hnode).mpr houtgoing, .refl⟩
    | cons flow rest =>
      have hflow : flow ∈ graph.outgoing node.id := houtgoing ▸ List.mem_cons_self
      obtain ⟨hmem, hsource⟩ := List.mem_filter.mp hflow
      obtain ⟨target, htarget, hid⟩ := htargets flow hmem
      have hdown := hranked.flows flow hmem
      have hbound := List.idxOf_lt_length_of_mem (hranked.nodes target htarget)
      rw [beq_iff_eq.mp hsource, ← hid] at hdown
      obtain ⟨final, hfinal, hend, hreach⟩ := ih _ (by omega) target htarget rfl
      exact ⟨final, hfinal, hend, .head (leads_iff.mpr ⟨flow, hflow, hid.symm⟩) hreach⟩

theorem Accepted.sound (h : Accepted S graph) : Sound graph := by
  obtain ⟨order, hranked⟩ := h.graphOk.ranked
  have hends : ∀ node ∈ graph.nodes, node.kind = .end ↔ graph.outgoing node.id = [] :=
      fun node hnode => checkFlows_ends (h.nodeOk hnode).flows
  exact {
    acyclic := hranked.acyclic
    start := h.graphOk.start_reaches
    finishes := fun node hnode => finishes_of_ranked hranked
      (fun flow hflow => (h.graphOk.endpoints hflow).2) hends _ node hnode rfl
    ends := hends
    defaults := fun node hnode hif => checkFlows_defaults (h.nodeOk hnode).flows hif }

theorem Accepted.level {level : Workflow} (h : Accepted S graph) (hlevel : Level graph level) : Accepted S level := by
  induction hlevel with
  | here => exact h
  | body hnode hbody _ ih => exact ih ((h.nodeOk hnode).body _ hbody).1

end Accepted

/-! ### The search finds every cycle, and nothing else stops it -/

theorem foldlM_succeeds {α : Type} {step : List String → α → Except String (List String)} {xs : List α}
    (hstep : ∀ x ∈ xs, ∀ visited, ∃ visited', step visited x = .ok visited')
    (visited : List String) : ∃ visited', xs.foldlM step visited = .ok visited' := by
  induction xs generalizing visited with
  | nil => exact ⟨visited, rfl⟩
  | cons x rest ih =>
    obtain ⟨mid, hmid⟩ := hstep x List.mem_cons_self visited
    obtain ⟨visited', hrest⟩ := ih (fun y hy => hstep y (List.mem_cons_of_mem _ hy)) mid
    exact ⟨visited', by rw [List.foldlM_cons, bind_eq_ok]; exact ⟨mid, hmid, hrest⟩⟩

/-- Where no cycle is reached, the search succeeds: its path is made of different nodes of the graph. -/
theorem walk_succeeds {graph : Workflow} {start : String}
    (hendpoints : ∀ flow ∈ graph.flows, ∃ target ∈ graph.nodes, target.id = flow.target)
    (hacyclic : ∀ key, Reaches graph start key → ¬OnCycle graph key) :
    ∀ (fuel : Nat) (active : List String) (key : String) (visited : List String),
    fuel + active.length = graph.nodes.length + 1 → active.Nodup →
      (∀ a ∈ active, (∃ node ∈ graph.nodes, node.id = a) ∧ TransGen (Leads graph) a key) →
      (∃ node ∈ graph.nodes, node.id = key) →
      Reaches graph start key → ∃ visited', walk graph fuel active key visited = .ok visited'
  | 0, active, key, visited, hfuel, hnodup, hactive, _, _ => by
    have hsub : active ⊆ graph.nodes.map (·.id) := fun a ha => by
      obtain ⟨⟨node, hnode, rfl⟩, -⟩ := hactive a ha
      exact List.mem_map.mpr ⟨node, hnode, rfl⟩
    have hle := (List.subperm_of_subset hnodup hsub).length_le
    rw [List.length_map] at hle
    omega
  | fuel + 1, active, key, visited, hfuel, hnodup, hactive, hkey, hreach => by
    have hoff : key ∉ active := fun hmem => hacyclic key hreach (hactive key hmem).2
    rw [walk, if_neg (by simpa using hoff)]
    split
    · exact ⟨visited, rfl⟩
    · have hfold : ∃ mid, (graph.outgoing key).foldlM (fun visited flow =>
          walk graph fuel (key :: active) flow.target visited) visited = .ok mid := by
        refine foldlM_succeeds (fun flow hflow visited => ?_) visited
        have hleads : Leads graph key flow.target := leads_iff.mpr ⟨flow, hflow, rfl⟩
        refine walk_succeeds hendpoints hacyclic fuel (key :: active) flow.target visited ?_
          (List.nodup_cons.mpr ⟨hoff, hnodup⟩)
          (fun a ha => ?_) (hendpoints flow (List.mem_filter.mp hflow).1) (hreach.tail hleads)
        · rw [List.length_cons]
          omega
        · obtain rfl | ha := List.mem_cons.mp ha
          · exact ⟨hkey, .single hleads⟩
          · exact ⟨(hactive a ha).1, (hactive a ha).2.tail hleads⟩
      obtain ⟨mid, hmid⟩ := hfold
      exact ⟨key :: mid, by rw [bind_eq_ok]; exact ⟨mid, hmid, rfl⟩⟩

/-- What a level must have besides being free of cycles. -/
structure Faultless (S : Services) (graph : Workflow) : Prop where
  profile : checkProfile S graph = .ok ()
  identities : graph.identities.Nodup
  actors : checkActors graph.actors = .ok ()
  nodes : ∀ node ∈ graph.nodes, checkNode S graph.typed graph.actors node = .ok ()
  ends : checkEnds graph = .ok ()
  flows : ∀ flow ∈ graph.flows, checkFlow S graph flow = .ok ()
  reached : ∀ start ∈ graph.nodes, start.kind = .start → ∀ node ∈ graph.nodes, Reaches graph start.id node.id
  degrees : ∀ node ∈ graph.nodes, checkFlows graph node = .ok ()
  activities : ∀ node ∈ graph.nodes, checkActivity S graph node = .ok ()
  loops : ∀ node ∈ graph.nodes, node.kind.isLoop = node.body.isSome
  bodies : ∀ node ∈ graph.nodes, ∀ body, node.body = some body →
    checkLoop S node.kind node.config graph.schemaVersion body.schemaVersion = .ok ()

/-- A cycle that is reached from a start. -/
def ReachesCycle (graph : Workflow) : Prop := ∃ start ∈ graph.nodes, start.kind = .start ∧ ∃ key,
    Reaches graph start.id key ∧ OnCycle graph key

section Faultless
variable {graph : Workflow}

theorem Faultless.checkReachable (h : Faultless S graph) (hacyclic : ¬ReachesCycle graph) :
    checkReachable graph = .ok () := by
  have hends := h.ends
  rw [checkEnds, reject_eq_ok, Bool.or_eq_false_iff] at hends
  obtain ⟨start, hstart⟩ := List.length_eq_one_iff.mp (by simpa using hends.1)
  have hmem : start ∈ graph.nodes ∧ (start.kind == .start) = true := List.mem_filter.mp (hstart ▸ List.mem_cons_self)
  have hkind : start.kind = .start := beq_iff_eq.mp hmem.2
  have hendpoints : ∀ flow ∈ graph.flows, ∃ target ∈ graph.nodes, target.id = flow.target := by
    intro flow hflow
    have hcheck := h.flows flow hflow
    unfold checkFlow at hcheck
    split at hcheck
    · next _ target _ htarget =>
        exact ⟨target, List.mem_of_find?_eq_some htarget, by simpa using List.find?_some htarget⟩
    · cases hcheck
  obtain ⟨order, hwalk⟩ := walk_succeeds hendpoints
    (fun key hreach hcycle => hacyclic ⟨start, hmem.1, hkind, key, hreach, hcycle⟩)
    (graph.nodes.length + 1) [] start.id [] rfl .nil (fun _ ha => absurd ha List.not_mem_nil) ⟨start, hmem.1, rfl⟩ .refl
  -- what the search has finished is closed under the flows
  obtain ⟨hfinishes, hroot⟩ := walk_finishes hwalk
  have hclosed : ∀ key, Reaches graph start.id key → key ∈ order := by
    intro key hreach
    induction hreach with
    | refl => exact hroot
    | tail _ hleads ih =>
      obtain ⟨flow, hflow, htarget⟩ := leads_iff.mp hleads
      obtain ⟨pre, post, hsplit⟩ := List.append_of_mem ih
      obtain hnil | htargets := hfinishes.ordered _ post ⟨pre, hsplit.symm⟩
      · simp at hnil
      · rw [hsplit, ← htarget]
        exact List.mem_append_right _ (List.mem_cons_of_mem _ (htargets flow hflow))
  unfold Bpmn.checkReachable
  rw [hstart]
  simp only [bind_eq_ok, reject_eq_ok]
  refine ⟨order, hwalk, ?_⟩
  rw [Bool.not_eq_false', List.all_eq_true]
  intro node hnode
  simpa using hclosed node.id (h.reached start hmem.1 hkind node hnode)

theorem Faultless.graphOk (h : Faultless S graph) (hacyclic : ¬ReachesCycle graph) : GraphOk S graph :=
  ⟨h.profile, h.identities, h.actors, h.nodes, h.ends, h.flows, h.checkReachable hacyclic⟩

end Faultless

mutual

/-- A workflow is accepted where each of its levels is, among identifiers that are all new. -/
theorem validateWorkflow_accepts : ∀ {graph : Workflow} {seen : List String},
    (∀ level, Level graph level → Faultless S level ∧ ¬ReachesCycle level) →
    (allIds graph).Nodup → (∀ id ∈ allIds graph, id ∉ seen) → ∃ out, validateWorkflow S graph seen = .ok out
  | ⟨version, nodes, flows, actors, agent, inputs, outputs⟩, seen, hlevels, hnodup, hfresh => by
    obtain ⟨hfaultless, hacyclic⟩ := hlevels _ (.here _)
    rw [allIds] at hnodup hfresh
    have hgraph := checkGraph_eq_ok_iff.mpr
        ⟨hfaultless.graphOk hacyclic, fun id hid => hfresh id (List.mem_append_left _ hid), rfl⟩
    obtain ⟨out, hout⟩ := validateNodes_accepts (fun node hnode => hnode) hfaultless
      (fun node hnode body hbody level hlevel => hlevels level (.body hnode hbody hlevel))
      (List.nodup_append.mp hnodup).2.1 fun id hid hseen => by
        obtain hmine | hseen := List.mem_append.mp hseen
        · exact (List.nodup_append.mp hnodup).2.2 id hmine id hid rfl
        · exact hfresh id (List.mem_append_right _ hid) hseen
    exact ⟨out, by rw [validateWorkflow, bind_eq_ok]; exact ⟨_, hgraph, hout⟩⟩

theorem validateNodes_accepts : ∀ {graph : Workflow} {nodes : List Node} {seen : List String},
    (∀ node ∈ nodes, node ∈ graph.nodes) → Faultless S graph →
    (∀ node ∈ nodes, ∀ body, node.body = some body → ∀ level, Level body level → Faultless S level ∧
      ¬ReachesCycle level) →
    (innerIds nodes).Nodup → (∀ id ∈ innerIds nodes, id ∉ seen) → ∃ out, validateNodes S graph nodes seen = .ok out
  | _, [], seen, _, _, _, _, _ => ⟨seen, by rw [validateNodes]⟩
  | graph, node :: rest, seen, hnodes, hfaultless, hlevels, hnodup, hfresh => by
    have hnode := hnodes node List.mem_cons_self
    rw [innerIds] at hnodup hfresh
    obtain ⟨mid, hmid⟩ := validateBody_accepts (hfaultless.loops node hnode)
      (hfaultless.bodies node hnode) (hlevels node List.mem_cons_self)
      (List.nodup_append.mp hnodup).1 fun id hid => hfresh id (List.mem_append_left _ hid)
    obtain ⟨out, hout⟩ := validateNodes_accepts
      (fun other hother => hnodes other (List.mem_cons_of_mem _ hother)) hfaultless
      (fun other hother => hlevels other (List.mem_cons_of_mem _ hother))
      (List.nodup_append.mp hnodup).2.1 fun id hid hseen => by
        obtain hmine | hseen := List.mem_append.mp ((validateBody_takes hmid).out.mem_iff.mp hseen)
        · exact (List.nodup_append.mp hnodup).2.2 id hmine id hid rfl
        · exact hfresh id (List.mem_append_right _ hid) hseen
    refine ⟨out, ?_⟩
    simp only [validateNodes, bind_eq_ok]
    exact ⟨_, hfaultless.degrees node hnode, mid, hmid, _, hfaultless.activities node hnode, hout⟩

theorem validateBody_accepts : ∀ {version : SchemaVersion} {node : Node} {seen : List String},
    node.kind.isLoop = node.body.isSome →
    (∀ body, node.body = some body → checkLoop S node.kind node.config version body.schemaVersion = .ok ()) →
    (∀ body, node.body = some body → ∀ level, Level body level → Faultless S level ∧ ¬ReachesCycle level) →
    (bodyIds node).Nodup → (∀ id ∈ bodyIds node, id ∉ seen) → ∃ out, validateBody S version node seen = .ok out
  | _, ⟨_, kind, _, _, _, _, some body, _, _⟩, seen, hloop, hcheck, hlevels, hnodup, hfresh => by
    rw [bodyIds] at hnodup hfresh
    obtain ⟨out, hout⟩ := validateWorkflow_accepts (hlevels body rfl) hnodup hfresh
    have hloop : kind.isLoop = true := hloop
    refine ⟨out, ?_⟩
    rw [validateBody, if_pos hloop]
    simp only [bind_eq_ok, pure_eq_ok]
    exact ⟨out, hout, _, hcheck body rfl, rfl⟩
  | _, ⟨_, kind, _, _, _, _, none, _, _⟩, seen, hloop, _, _, _, _ => by
    have hloop : kind.isLoop = false := hloop
    exact ⟨seen, by rw [validateBody, if_neg (by rw [hloop]; decide)]⟩

end

/-- What is accepted is sound at every level, its identifiers differ across all levels; and a workflow
without any other fault is rejected exactly where one of its levels reaches a cycle from its start. -/
theorem validateGraph_sound_and_complete (S : Services) (graph : Workflow) :
    (Accepted S graph → (∀ level, Level graph level → Sound level) ∧ (allIds graph).Nodup) ∧
      ((∀ level, Level graph level → Faultless S level) → (allIds graph).Nodup →
        (¬Accepted S graph ↔ ∃ level, Level graph level ∧ ReachesCycle level)) := by
  refine ⟨fun h => ⟨fun level hlevel => (h.level hlevel).sound, h.allIds_nodup⟩,
    fun hfaultless hnodup => ⟨fun hrejected => ?_, ?_⟩⟩
  · by_contra hacyclic
    have hlevels : ∀ level, Level graph level → Faultless S level ∧ ¬ReachesCycle level := fun level hlevel =>
      ⟨hfaultless level hlevel, fun hcycle => hacyclic ⟨level, hlevel, hcycle⟩⟩
    exact hrejected (accepted_iff.mpr (validateWorkflow_accepts hlevels hnodup fun _ _ => List.not_mem_nil))
  · rintro ⟨level, hlevel, start, -, -, key, -, hcycle⟩ haccepted
    exact (haccepted.level hlevel).sound.acyclic key hcycle

end Galaris.Process.Bpmn
