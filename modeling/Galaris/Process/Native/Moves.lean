import Galaris.Process.Native.Engine

/-! What one call does to the rows, as moves.

A call of `_advance` lets a row wait, merges the arrivals at a convergence, refreshes the
values of a row, completes it, enters the body of a loop, comes back from it, or fails.
Each is one `Move`; a call is a sequence of them (`step_moves`), so that an invariant of
the run is shown for every move once. -/
namespace Galaris.Process.Native
open Bpmn Results

/-- The graph and the node of a row. -/
structure Placed (G : Workflow) (o : Occurrence) (graph : Workflow) (node : Node) : Prop where
  local' : localGraph G o.context.bodyPath = some graph
  node' : graph.node o.nodeKey = some node

/-- A call never changes where a row is, nor the flow it arrived by. -/
structure SameRow (o o' : Occurrence) : Prop where
  id : o'.id = o.id
  nodeKey : o'.nodeKey = o.nodeKey
  bodyPath : o'.context.bodyPath = o.context.bodyPath
  returnNode : o'.context.returnNode = o.context.returnNode
  ancestors : o'.context.ancestors = o.context.ancestors
  incomingFlow : o'.context.incomingFlow = o.context.incomingFlow

/-- The row has to converge before it can act; a parallel gateway converges on every call. -/
def awaitsMerge (graph : Workflow) (node : Node) (o : Occurrence) : Bool :=
  converges graph node.id && (node.kind == .parallel || !o.context.converged)

/-- The row is the only one left of the arrivals at its node. -/
def Settled (graph : Workflow) (node : Node) (o : Occurrence) : Prop :=
  converges graph node.id = true → o.context.converged = true

/-- The node asks for something outside the run: an activity, or an IF that is decided by
an agent, code or a human. -/
def asks (node : Node) : Bool := (node.kind == .if && node.mode.isSome) || node.kind.isActivity

/-- What the node adds to the results it passes on. -/
def Passes (node : Node) (before values : Values) : Prop :=
  if node.kind.isActivity || node.kind.isLoop then
    ∃ output, values.output = some output ∧ values.results = before.results.insert node.id output
  else values.results = before.results

/-- The row differs in what its activity or its loop keeps there. -/
structure Touched (o o' : Occurrence) : Prop where
  row : SameRow o o'
  forks : o'.context.forks = o.context.forks
  converged : o'.context.converged = o.context.converged

/-- The values once the arrivals are merged. -/
def mergedValues (arrivals : List Occurrence) (canonical : Occurrence) (results : Dict Value) : Values :=
  {((matchingFork arrivals).map (·.base)).getD canonical.context.values with results := results}

/-- The row that goes on for all arrivals. -/
def mergedRow (arrivals : List Occurrence) (canonical : Occurrence) (values : Values) : Occurrence :=
  {canonical with
    status := .ready
    context := {canonical.context with
      forks := (sharedForks arrivals).dropLast
      values := values
      converged := true}}

/-- The context in which the body of a loop starts. -/
def bodyContext (o : Occurrence) (node : Node) (values : Values) : Context :=
  {o.context with
    values := values
    loop := none
    bodyPath := o.context.bodyPath ++ [node.id]
    returnNode := some o.id
    ancestors := o.context.ancestors ++ [o.id]
    forks := []}

section Moves
variable (E : Evaluator) (G : Workflow)

/-- One move of the rows. -/
inductive Move (run : Run) : Run → Prop
  /-- Something in the invocation can still reach the convergence. -/
  | wait {graph node o} (placed : Placed G o graph node) (found : run.find o.id = some o) (active : o.active = true)
      (awaits : awaitsMerge graph node o = true) (blocked : blockedAt graph run o = true) :
      Move run (run.update {o with status := .waiting})
  /-- One of the arrivals goes on for all of them. -/
  | merge {graph node o results} (placed : Placed G o graph node) (found : run.find o.id = some o)
      (active : o.active = true) (awaits : awaitsMerge graph node o = true) (open' : blockedAt graph run o = false)
      (merged : mergeArrivals (arrivalsAt run o) = .ok results) :
      Move run (absorb (arrivalsAt run o) (canonicalOf o (arrivalsAt run o))
        (mergedValues (arrivalsAt run o) (canonicalOf o (arrivalsAt run o)) results) run)
  /-- The run data is read again. -/
  | refresh {o} (data : Value) (files : Json) (found : run.find o.id = some o) (active : o.active = true) :
      Move run (run.update (workspaceValues o data files))
  /-- What the node asks for is outstanding. -/
  | await {graph node o} (placed : Placed G o graph node) (found : run.find o.id = some o) (active : o.active = true)
      (settled : Settled graph node o) (asked : asks node = true) :
      Move run (run.await o)
  /-- The node is completed and its successors are admitted. -/
  | complete {graph node o o' values flows} (placed : Placed G o graph node) (found : run.find o.id = some o)
      (active : o.active = true) (settled : Settled graph node o) (touched : Touched o o') (inner : node.kind ≠ .end)
      (idle : node.kind.isLoop = true → o.status = .ready) (passes : Passes node o.context.values values)
      (taken : takenFlows E graph node values true = .ok flows) :
      Move run (finish (run.update {o' with status := .success, output := values.output}) o' values flows)
  /-- The next iteration of a loop begins. -/
  | enter {graph node body start o values loop} (placed : Placed G o graph node) (found : run.find o.id = some o)
      (ready : o.status = .ready) (settled : Settled graph node o) (loops : node.kind.isLoop = true)
      (hasBody : node.body = some body) (begins : body.nodes.find? (fun item => item.kind == .start) = some start)
      (kept : values.results = o.context.values.results) :
      Move run ((run.update {o with
        status := .waiting, context := {o.context with values := values, loop := some loop}}).enqueue start.id
        (bodyContext o node values))
  /-- An end inside a loop. -/
  | comeBack {graph node o values output returning run'} (placed : Placed G o graph node)
    (found : run.find o.id = some o)
      (active : o.active = true) (settled : Settled graph node o) (ends : node.kind = .end)
      (inside : o.context.returnNode = some returning) (kept : values.results = o.context.values.results)
      (returned : returnToLoop run o values output returning = .ok run') :
      Move run (finish (run'.update {o with status := .success, output := values.output}) o values [])
  /-- An end of the process. -/
  | finish {graph node o values output output' run'} (placed : Placed G o graph node) (found : run.find o.id = some o)
      (active : o.active = true) (settled : Settled graph node o) (ends : node.kind = .end)
      (outside : o.context.returnNode = none) (kept : values.results = o.context.values.results)
      (returned : returnToRun E graph run o output = .ok (run', output')) :
      Move run (finish (run'.update {o with status := .success, output := values.output}) o values [])
  /-- The call raises: the occurrence fails and the run is cancelled. -/
  | fail {o o' error paused} (found : run.find o.id = some o) (active : o.active = true) (same : SameRow o o')
      (failed : o'.status = .error ∨ o'.status = .unknown) :
      Move run {run.update o' with status := .cancelling, cancelRequested := true, paused := paused, error := error}

/-- A sequence of moves of a running run. -/
def Moves : Run → Run → Prop := Relation.ReflTransGen fun run run' => run.status = .running ∧ Move E G run run'

end Moves

variable {E : Evaluator} {G : Workflow}

/-- What every move keeps, a sequence of moves keeps. -/
theorem Moves.keeps {P : Run → Prop} (move : ∀ run run', run.status = .running → P run → Move E G run run' → P run')
    {run run' : Run} (h : Moves E G run run') (hrun : P run) : P run' := by
  induction h with
  | refl => exact hrun
  | tail _ hlast ih => exact move _ _ hlast.1 ih hlast.2

/-! ### Rows -/

theorem SameRow.refl (o : Occurrence) : SameRow o o := ⟨rfl, rfl, rfl, rfl, rfl, rfl⟩

theorem SameRow.trans {o p q : Occurrence} (h : SameRow o p) (k : SameRow p q) : SameRow o q where
  id := k.id.trans h.id
  nodeKey := k.nodeKey.trans h.nodeKey
  bodyPath := k.bodyPath.trans h.bodyPath
  returnNode := k.returnNode.trans h.returnNode
  ancestors := k.ancestors.trans h.ancestors
  incomingFlow := k.incomingFlow.trans h.incomingFlow

theorem SameRow.placed {o o' : Occurrence} (h : SameRow o o') {graph : Workflow} {node : Node} :
    Placed G o' graph node ↔ Placed G o graph node := by
  constructor
  · exact fun ⟨hgraph, hnode⟩ => ⟨h.bodyPath ▸ hgraph, h.nodeKey ▸ hnode⟩
  · exact fun ⟨hgraph, hnode⟩ => ⟨h.bodyPath ▸ hgraph, h.nodeKey ▸ hnode⟩

theorem Touched.refl (o : Occurrence) : Touched o o := ⟨.refl o, rfl, rfl⟩

theorem Touched.settled {graph : Workflow} {node : Node} {o o' : Occurrence} (h : Touched o o')
    (hsettled : Settled graph node o) : Settled graph node o' :=
  fun hconverges => h.converged.trans (hsettled hconverges)

theorem workspaceValues_touched (o : Occurrence) (data : Value) (files : Json) :
    Touched o (workspaceValues o data files) :=
  ⟨⟨rfl, rfl, rfl, rfl, rfl, rfl⟩, rfl, rfl⟩

/-- The rows where one is replaced. -/
theorem find_update {run : Run} {o o' : Occurrence} (hfound : run.find o.id = some o) (hid : o'.id = o.id) :
    (run.update o').find o.id = some o' := by
  unfold Run.find Run.update at *
  induction hrows : run.occurrences generalizing run with
  | nil => rw [hrows] at hfound; cases hfound
  | cons first rest ih =>
    rw [hrows] at hfound
    rw [List.map_cons, List.find?_cons]
    rw [List.find?_cons] at hfound
    by_cases hfirst : first.id = o.id
    · simp [hid, hfirst]
    · have hne : ¬ first.id = o'.id := fun heq => hfirst (heq.trans hid)
      simp only [hfirst, beq_eq_false_iff_ne.mpr, ne_eq, not_false_eq_true, hne, if_false] at hfound ⊢
      exact @ih {run with occurrences := rest} hfound rfl

theorem update_update (run : Run) {o o' : Occurrence} (hid : o'.id = o.id) :
    (run.update o).update o' = run.update o' := by
  simp only [Run.update, List.map_map]
  congr 1
  refine List.map_congr_left fun item _ => ?_
  by_cases h : item.id = o.id
  · simp [h, hid]
  · simp [h, hid]

/-! ### Calls -/

/-- A call leads there by moves, or fails after some. -/
def Leads (E : Evaluator) (G : Workflow) (run : Run) (o : Occurrence) (node : Node) : Result Run → Prop
  | .ok run' => Moves E G run run'
  | .error failure => (failure.run.find o.id).isSome = true ∧ Moves E G run (fail failure o node)

section Calls
variable {graph : Workflow} {node : Node} {run : Run} {o : Occurrence}

/-- The row is read again at the end, so only its identity counts. -/
theorem Leads.after {run' : Run} {row : Occurrence} {result : Result Run} (hrunning : run.status = .running)
    (hmove : Move E G run run') (h : Leads E G run' row node result) (hid : row.id = o.id) :
    Leads E G run o node result := by
  cases result with
  | ok _ => exact Relation.ReflTransGen.head ⟨hrunning, hmove⟩ h
  | error failure =>
    obtain ⟨hfound, hmoves⟩ := h
    have hsame : fail failure row node = fail failure o node := by
      obtain ⟨last, hlast⟩ := Option.isSome_iff_exists.mp hfound
      simp only [fail, ← hid, hlast, Option.getD_some]
    exact ⟨hid ▸ hfound, hsame ▸ Relation.ReflTransGen.head ⟨hrunning, hmove⟩ hmoves⟩

theorem Leads.one {run' : Run} (hrunning : run.status = .running) (hmove : Move E G run run') :
    Leads E G run o node (.ok run') :=
  Relation.ReflTransGen.single ⟨hrunning, hmove⟩

/-- A call raises once it changed no more than its own row. -/
theorem fail_leads (hrunning : run.status = .running) (hfound : run.find o.id = some o) (hactive : o.active = true)
    {failed : Run} {row : Occurrence} {message : String} {unknown : Bool} (hrow : failed.find o.id = some row)
    (hsame : SameRow o row) (hrest : ∀ row', row'.id = o.id → failed.update row' = run.update row') :
    Leads E G run o node (.error ⟨failed, message, unknown⟩) := by
  refine ⟨by rw [hrow]; rfl, Relation.ReflTransGen.single ⟨hrunning, ?_⟩⟩
  have hupdate (status : OccurrenceStatus) : failed.update {row with status := status} =
      run.update {row with status := status} := hrest _ hsame.id
  simp only [fail, hrow, Option.getD_some, hupdate]
  refine .fail hfound hactive (hsame.trans ⟨rfl, rfl, rfl, rfl, rfl, rfl⟩) ?_
  split
  · exact .inr rfl
  · exact .inl rfl

/-- A call raises before it changed anything. -/
theorem raised_leads (hrunning : run.status = .running) (hfound : run.find o.id = some o) (hactive : o.active = true)
    {failure : Failure} (hsame : failure.run = run) : Leads E G run o node (.error failure) := by
  subst hsame
  exact fail_leads hrunning hfound hactive hfound (.refl o) fun _ _ => rfl

/-- What is attempted either raises or goes on. -/
theorem attempt_leads {α : Type} (hrunning : run.status = .running) (hfound : run.find o.id = some o)
    (hactive : o.active = true) {x : Except String α} {f : α → Result Run}
    (h : ∀ a, x = .ok a → Leads E G run o node (f a)) : Leads E G run o node (attempt run x >>= f) := by
  cases x with
  | ok a => exact h a rfl
  | error message => exact raised_leads hrunning hfound hactive rfl

theorem complete_leads (hrunning : run.status = .running) (hplaced : Placed G o graph node)
    (hfound : run.find o.id = some o) (hactive : o.active = true) (hsettled : Settled graph node o) {o' : Occurrence}
    (htouched : Touched o o') (hinner : node.kind ≠ .end) (hidle : node.kind.isLoop = true → o.status = .ready)
    {values : Values} (hpasses : Passes node o.context.values values) :
    Leads E G run o node (complete E graph node run o' values true) := by
  unfold complete
  cases htaken : takenFlows E graph node values true with
  | error message =>
    refine fail_leads hrunning hfound hactive (find_update hfound htouched.row.id)
      (htouched.row.trans ⟨rfl, rfl, rfl, rfl, rfl, rfl⟩) fun row' hid => ?_
    exact update_update run (hid.trans htouched.row.id.symm)
  | ok flows => exact .one hrunning (.complete hplaced hfound hactive hsettled htouched hinner hidle hpasses htaken)

theorem advanceDecision_leads (hrunning : run.status = .running) (hplaced : Placed G o graph node)
    (hfound : run.find o.id = some o) (hactive : o.active = true) (hsettled : Settled graph node o)
    (hkind : node.kind = .if) (hmode : node.mode.isSome = true) (given : Given) :
    Leads E G run o node (advanceDecision E graph node run o given) := by
  unfold advanceDecision
  split
  · exact .one hrunning (.await hplaced hfound hactive hsettled (by simp [asks, hkind, hmode]))
  · exact raised_leads hrunning hfound hactive rfl
  · split
    · dsimp only
      refine complete_leads hrunning hplaced hfound hactive hsettled ?_ ?_ ?_ ?_
      · exact ⟨⟨rfl, rfl, rfl, rfl, rfl, rfl⟩, rfl, rfl⟩
      · simp [hkind]
      · simp [hkind, NodeKind.isLoop]
      · simp [Passes, hkind, NodeKind.isActivity, NodeKind.isLoop]
    · exact raised_leads hrunning hfound hactive rfl

theorem advanceActivity_leads (hrunning : run.status = .running) (hplaced : Placed G o graph node)
    (hfound : run.find o.id = some o) (hactive : o.active = true) (hsettled : Settled graph node o)
    (hkind : node.kind.isActivity = true) (given : Given) :
    Leads E G run o node (advanceActivity E graph node run o given) := by
  unfold advanceActivity
  split
  · exact .one hrunning (.await hplaced hfound hactive hsettled (by simp [asks, hkind]))
  · exact raised_leads hrunning hfound hactive rfl
  · dsimp only
    refine complete_leads hrunning hplaced hfound hactive hsettled ?_ ?_ ?_ ?_
    · exact ⟨⟨rfl, rfl, rfl, rfl, rfl, rfl⟩, rfl, rfl⟩
    · intro hend
      simp [hend, NodeKind.isActivity] at hkind
    · intro hloop
      cases hnode : node.kind <;> simp [hnode, NodeKind.isActivity, NodeKind.isLoop] at hkind hloop
    · simp [Passes, hkind, workspaceValues]

theorem loopProceeds_results {values values' : Values} {loop loop' : Loop} {proceed : Bool}
    (h : loopProceeds E node values loop = .ok (proceed, values', loop')) : values'.results = values.results := by
  unfold loopProceeds at h
  split at h
  · simp only [bind_eq_ok] at h
    obtain ⟨items, -, h⟩ := h
    split at h
    · cases h
      rfl
    · cases h
      rfl
  · simp only [bind_eq_ok, pure_eq_ok] at h
    obtain ⟨holds, -, h⟩ := h
    cases h
    rfl

theorem advanceLoop_leads (hrunning : run.status = .running) (hplaced : Placed G o graph node)
    (hfound : run.find o.id = some o) (hactive : o.active = true) (hsettled : Settled graph node o)
    (hkind : node.kind.isLoop = true) : Leads E G run o node (advanceLoop E graph node run o) := by
  unfold advanceLoop
  split
  · exact Relation.ReflTransGen.refl
  · next hwaiting =>
    have hready : o.status = .ready := by
      simp only [Occurrence.active, Bool.or_eq_true, beq_iff_eq] at hactive hwaiting
      exact hactive.resolve_right hwaiting
    split
    · exact raised_leads hrunning hfound hactive rfl
    · next body hbody =>
      refine attempt_leads hrunning hfound hactive fun result hproceeds => ?_
      obtain ⟨proceed, values, loop⟩ := result
      have hresults := loopProceeds_results hproceeds
      simp only
      split
      · refine complete_leads hrunning hplaced hfound hactive hsettled ?_ ?_ (fun _ => hready) ?_
        · exact ⟨⟨rfl, rfl, rfl, rfl, rfl, rfl⟩, rfl, rfl⟩
        · intro hend
          simp [hend, NodeKind.isLoop] at hkind
        · simp [Passes, hkind, hresults]
      · split
        · exact raised_leads hrunning hfound hactive rfl
        · next start hstart =>
          exact .one hrunning (.enter hplaced hfound hready hsettled hkind hbody hstart hresults)

/-! ### Convergence -/

theorem canonicalOf_mem (o : Occurrence) (arrivals : List Occurrence) :
    canonicalOf o arrivals = o ∨ canonicalOf o arrivals ∈ arrivals := by
  unfold canonicalOf
  induction arrivals generalizing o with
  | nil => exact .inl rfl
  | cons first rest ih =>
    rw [List.foldl_cons]
    split
    · refine .inr (List.mem_cons.mpr (ih first))
    · exact (ih o).imp_right (List.mem_cons_of_mem _)

/-- Who arrived is active, at the node and in the frame. -/
theorem mem_arrivalsAt {item : Occurrence} : item ∈ arrivalsAt run o ↔
    item ∈ run.occurrences ∧ item.active = true ∧ item.frame = o.frame ∧ item.nodeKey = o.nodeKey := by
  simp only [arrivalsAt, invocation, Run.active, List.mem_filter, beq_iff_eq, and_assoc]

theorem joinTyped_ok {run' : Run} {proceed : Bool} (h : joinTyped graph run o = .ok (run', proceed)) :
    (blockedAt graph run o = true ∧ run' = run.update {o with status := .waiting} ∧ proceed = false) ∨
    ∃ results, blockedAt graph run o = false ∧ mergeArrivals (arrivalsAt run o) = .ok results ∧
      run' = absorb (arrivalsAt run o) (canonicalOf o (arrivalsAt run o))
        (mergedValues (arrivalsAt run o) (canonicalOf o (arrivalsAt run o)) results) run ∧
      proceed = ((canonicalOf o (arrivalsAt run o)).id == o.id) := by
  unfold joinTyped at h
  split at h
  · next hblocked =>
    cases h
    exact .inl ⟨hblocked, rfl, rfl⟩
  · next hopen =>
    dsimp only at h
    split at h
    · cases h
    · simp only [bind_eq_ok, pure_eq_ok, Prod.mk.injEq] at h
      obtain ⟨results, hresults, hrun, hproceed⟩ := h
      exact .inr ⟨results, by simpa using hopen, hresults, hrun.symm, hproceed.symm⟩

/-- The row that goes on, among the merged rows. -/
theorem find_absorb {arrivals : List Occurrence} {canonical : Occurrence} {values : Values}
    (hfound : run.find o.id = some o) (hid : canonical.id = o.id) :
    (absorb arrivals canonical values run).find o.id = some (mergedRow arrivals canonical values) := by
  unfold Run.find absorb mergedRow at *
  induction hrows : run.occurrences generalizing run with
  | nil => rw [hrows] at hfound; cases hfound
  | cons first rest ih =>
    rw [hrows] at hfound
    rw [List.map_cons, List.find?_cons]
    rw [List.find?_cons] at hfound
    by_cases hfirst : first.id = o.id
    · simp [hid, hfirst]
    · have hne : ¬ first.id = canonical.id := fun heq => hfirst (heq.trans hid)
      have hkept : ∀ b : Bool, (if b then {first with status := .success} else first).id = first.id := by
        intro b
        cases b
        · rfl
        · rfl
      simp only [hfirst, hne, beq_eq_false_iff_ne.mpr, ne_eq, not_false_eq_true, if_false, hkept] at hfound ⊢
      exact @ih {run with occurrences := rest} hfound rfl

/-- The arrivals at a convergence wait, or one of them is merged and may go on. -/
theorem joinTyped_leads (hrunning : run.status = .running) (hplaced : Placed G o graph node)
    (hfound : run.find o.id = some o) (hactive : o.active = true) (hawaits : awaitsMerge graph node o = true)
    {f : Run × Bool → Result Run} (hstay : ∀ run', f (run', false) = .ok run')
    (hgo : ∀ run' row, run'.status = .running → Placed G row graph node → run'.find row.id = some row → row.id = o.id →
      row.active = true → Settled graph node row → Leads E G run' row node (f (run', true))) :
    Leads E G run o node (attempt run (joinTyped graph run o) >>= f) := by
  refine attempt_leads hrunning hfound hactive fun ⟨run', proceed⟩ hjoined => ?_
  rcases joinTyped_ok hjoined with ⟨hblocked, rfl, rfl⟩ | ⟨results, hopen, hmerged, rfl, hproceed⟩
  · rw [hstay]
    exact .one hrunning (.wait hplaced hfound hactive hawaits hblocked)
  · have hmove : Move E G run _ := .merge hplaced hfound hactive hawaits hopen hmerged
    cases proceed with
    | false =>
      rw [hstay]
      exact .one hrunning hmove
    | true =>
      have hid : (canonicalOf o (arrivalsAt run o)).id = o.id := by simpa using hproceed.symm
      have hcanonical : (canonicalOf o (arrivalsAt run o)).frame = o.frame ∧
          (canonicalOf o (arrivalsAt run o)).nodeKey = o.nodeKey := by
        rcases canonicalOf_mem o (arrivalsAt run o) with heq | hmem
        · rw [heq]
          exact ⟨rfl, rfl⟩
        · exact (mem_arrivalsAt.mp hmem).2.2
      have hpath : (canonicalOf o (arrivalsAt run o)).context.bodyPath = o.context.bodyPath :=
        congrArg Prod.fst hcanonical.1
      have hrow (values : Values) : (absorb (arrivalsAt run o) (canonicalOf o (arrivalsAt run o)) values run).find
          (canonicalOf o (arrivalsAt run o)).id = _ := hid ▸ find_absorb hfound hid
      have hrow' := hgo _ (mergedRow _ _ _) ?_ ⟨hpath ▸ hplaced.local', hcanonical.2 ▸ hplaced.node'⟩
        (hrow (mergedValues (arrivalsAt run o) (canonicalOf o (arrivalsAt run o)) results)) hid rfl fun _ => rfl
      · exact .after hrunning hmove hrow' hid
      · exact hrunning

theorem advanceParallel_leads (hrunning : run.status = .running) (hplaced : Placed G o graph node)
    (hfound : run.find o.id = some o) (hactive : o.active = true) (hkind : node.kind = .parallel)
    (hconverges : converges graph node.id = true) (given : Given) :
    Leads E G run o node (advanceParallel E graph node run o given) := by
  refine joinTyped_leads hrunning hplaced hfound hactive (by simp [awaitsMerge, hkind, hconverges]) (fun _ => rfl) ?_
  intro run' row hrunning' hplaced' hfound' hid hactive' hsettled
  have hrow : run'.find o.id = some row := hid ▸ hfound'
  simp only [Bool.not_true, Bool.false_eq_true, if_false, hrow]
  refine complete_leads hrunning' hplaced' hfound' hactive' hsettled ?_ ?_ ?_ ?_
  · exact workspaceValues_touched _ _ _
  · simp [hkind]
  · simp [hkind, NodeKind.isLoop]
  · simp [Passes, hkind, NodeKind.isActivity, NodeKind.isLoop, workspaceValues]

/-! ### Ends -/

theorem complete_end {values : Values} (hkind : node.kind = .end) :
    complete E graph node run o values false =
      .ok (finish (run.update {o with status := .success, output := values.output}) o values []) := by
  simp [complete, takenFlows, hkind, attempt]

theorem returnToLoop_error {values : Values} {output : Value} {returning : Nat} {failure : Failure}
    (h : returnToLoop run o values output returning = .error failure) : failure.run = run := by
  unfold returnToLoop at h
  split at h
  · cases h
    rfl
  · split at h
    · cases h
      rfl
    · dsimp only at h
      split at h
      · cases h
      · cases hwritten : mergeResults (bothWrite "Loop end events") _ _ with
        | ok _ => rw [hwritten] at h; cases h
        | error _ => rw [hwritten] at h; cases h; rfl

theorem returnToRun_error {output : Value} {failure : Failure} (h : returnToRun E graph run o output = .error failure) :
    failure.run = run := by
  unfold returnToRun at h
  dsimp only at h
  split at h
  · cases h
  · next hpending =>
    split at h
    · next outputs _ =>
      cases hnormalized : E.normalize outputs output with
      | ok normalized =>
        rw [hnormalized] at h
        simp [attempt] at h
      | error message => rw [hnormalized] at h; cases h; rfl
    · cases h
      rfl

theorem advanceEnd_leads (hrunning : run.status = .running) (hplaced : Placed G o graph node)
    (hfound : run.find o.id = some o) (hactive : o.active = true) (hsettled : Settled graph node o)
    (hkind : node.kind = .end) : Leads E G run o node (advanceEnd E graph node run o) := by
  unfold advanceEnd
  dsimp only
  split
  · exact raised_leads hrunning hfound hactive rfl
  · split
    · next returning hinside =>
      cases hreturned : returnToLoop run o {o.context.values with output := some o.context.values.data}
          o.context.values.data returning with
      | error failure => exact raised_leads hrunning hfound hactive (returnToLoop_error hreturned)
      | ok run' =>
        show Leads E G run o node (complete E graph node run' o _ false)
        rw [complete_end hkind]
        exact .one hrunning (.comeBack hplaced hfound hactive hsettled hkind hinside rfl hreturned)
    · next houtside =>
      cases hreturned : returnToRun E graph run o o.context.values.data with
      | error failure => exact raised_leads hrunning hfound hactive (returnToRun_error hreturned)
      | ok returned =>
        obtain ⟨run', output⟩ := returned
        show Leads E G run o node (complete E graph node run' o _ false)
        rw [complete_end hkind]
        exact .one hrunning (.finish hplaced hfound hactive hsettled hkind houtside rfl hreturned)

/-! ### One call -/

theorem act_leads (hrunning : run.status = .running) (hplaced : Placed G o graph node)
    (hfound : run.find o.id = some o) (hactive : o.active = true)
    (hsettled : node.kind ≠ .parallel → Settled graph node o) (given : Given) :
    Leads E G run o node (act E graph node run o given) := by
  have hunchanged (hone : node.kind ≠ .parallel ∨ converges graph node.id = false) : Settled graph node o := by
    rcases hone with hkind | hconverges
    · exact hsettled hkind
    · exact fun h => by rw [hconverges] at h; cases h
  unfold act
  split
  · next hdecision =>
    obtain ⟨hkind, hmode⟩ : node.kind = .if ∧ node.mode.isSome = true := by simpa using hdecision
    exact advanceDecision_leads hrunning hplaced hfound hactive (hunchanged (.inl (by simp [hkind]))) hkind hmode given
  split
  · next hactivity =>
    refine advanceActivity_leads hrunning hplaced hfound hactive (hunchanged (.inl ?_)) hactivity given
    intro hkind
    simp [hkind, NodeKind.isActivity] at hactivity
  split
  · next hloop =>
    refine advanceLoop_leads hrunning hplaced hfound hactive (hunchanged (.inl ?_)) hloop
    intro hkind
    simp [hkind, NodeKind.isLoop] at hloop
  split
  · next hparallel =>
    obtain ⟨hkind, hconverges⟩ : node.kind = .parallel ∧ converges graph node.id = true := by simpa using hparallel
    exact advanceParallel_leads hrunning hplaced hfound hactive hkind hconverges given
  have hsettled : Settled graph node o := by
    refine hunchanged ?_
    next hparallel => simpa [imp_iff_not_or] using hparallel
  split
  · next hend =>
    exact advanceEnd_leads hrunning hplaced hfound hactive hsettled (by simpa using hend)
  · next hactivity hloop _ hend =>
    refine complete_leads hrunning hplaced hfound hactive hsettled (.refl o) (by simpa using hend) ?_ ?_
    · exact fun h => absurd h hloop
    · simp [Passes, hactivity, hloop]

theorem advance_leads (hrunning : run.status = .running) (hplaced : Placed G o graph node)
    (hfound : run.find o.id = some o) (hactive : o.active = true) (given : Given) :
    Leads E G run o node (advance E graph node run o given) := by
  unfold advance
  have hact {run' : Run} {row : Occurrence} (hrunning' : run'.status = .running) (hplaced' : Placed G row graph node)
      (hfound' : run'.find row.id = some row) (hactive' : row.active = true)
      (hsettled : node.kind ≠ .parallel → Settled graph node row) :
      Leads E G run' row node (act E graph node (run'.update (workspaceValues row given.data given.files))
        (workspaceValues row given.data given.files) given) := by
    have htouched := workspaceValues_touched row given.data given.files
    have hrow : (run'.update (workspaceValues row given.data given.files)).find row.id =
        some (workspaceValues row given.data given.files) := find_update hfound' rfl
    have hleads := act_leads (E := E) ?_ (htouched.row.placed.mpr hplaced') hrow hactive'
      (fun hkind => htouched.settled (hsettled hkind)) given
    · exact .after hrunning' (.refresh given.data given.files hfound' hactive') hleads rfl
    · exact hrunning'
  split
  · next hjoin =>
    simp only [Bool.and_eq_true, bne_iff_ne, ne_eq, Bool.not_eq_true'] at hjoin
    obtain ⟨⟨hkind, hconverges⟩, hfresh⟩ := hjoin
    refine joinTyped_leads hrunning hplaced hfound hactive (by simp [awaitsMerge, hconverges, hfresh]) (fun _ => rfl) ?_
    intro run' row hrunning' hplaced' hfound' hid hactive' hsettled
    have hrow : run'.find o.id = some row := hid ▸ hfound'
    simp only [Bool.not_true, Bool.false_eq_true, if_false, hrow]
    exact hact hrunning' hplaced' hfound' hactive' fun _ => hsettled
  · next hjoin =>
    have hsettled : node.kind ≠ .parallel → Settled graph node o := by
      intro hkind hconverges
      simpa [hkind, hconverges] using hjoin
    simp only [pure_bind, Bool.not_true, Bool.false_eq_true, if_false, hfound]
    exact hact hrunning hplaced hfound hactive hsettled

/-- **A call is a sequence of moves.** -/
theorem step_moves (hrunning : run.status = .running) (hfound : run.find o.id = some o) (hactive : o.active = true)
    (given : Given) : Moves E G run (step E G run o given) := by
  unfold step
  split
  · exact Relation.ReflTransGen.refl
  · next graph hlocal =>
    split
    · exact Relation.ReflTransGen.refl
    · next node hnode =>
      have hleads := advance_leads (E := E) hrunning ⟨hlocal, hnode⟩ hfound hactive given
      cases hadvance : advance E graph node run o given with
      | ok run' => rw [hadvance] at hleads; exact hleads
      | error failure => rw [hadvance] at hleads; exact hleads.2

end Calls

end Galaris.Process.Native
