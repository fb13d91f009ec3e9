import Galaris.Task.Cancellation
import Galaris.Task.Endings

/-! A parent Task and the children whose results it waits for (`collab.py`).

A run that ends before its coordination children are folded suspends its Task
(`suspend_on_pending_children`). Every completion of a child, and two backstops, call
`maybe_fan_in`: it locks the parent, reads the children without a lock, and folds those
that are new in one transaction with the resumption. What a transaction on a child keeps
(`Child.Evolves`), and what a command on the parent does to its wait (`Quiet`), is said
once here. -/
namespace Galaris.Tasks

open Transition

/-! ### The family -/

/-- A child of the parent. A coordination child is an awaited answer, of a peer or of a process
(`data["awaiting_reply"]`), or a delegated Task (`data["delegated"]`). -/
structure Child where
  record : Record
  awaits : Bool := false
  delegated : Bool := false
  fannedIn : Bool := false
  timedOut : Bool := false
  complementSent : Bool := false
  deriving DecidableEq, Repr

namespace Child

/-- `get_children` returns it: it is a coordination child, and not deleted. -/
def live (child : Child) : Bool := (child.awaits || child.delegated) && !child.record.task.deleted

def unfolded (child : Child) : Bool := child.live && !child.fannedIn

/-- A live child without a terminal outcome. -/
def unsettled (child : Child) : Bool := child.live && !child.record.task.hasTerminalOutcome

end Child

/-- What the parent's context keeps of a child: who it is, and how it ended (`_render_await_result`). -/
structure Contribution where
  child : Nat
  status : TaskStatus
  feedback : Option String
  deriving DecidableEq, Repr

/-- The parent, its children by order of creation, and what the fan-in that holds the lock of the
parent's row has read of them. -/
structure Family where
  parent : Record
  children : List Child
  /-- `data["collab_context"]` -/
  context : List Contribution := []
  /-- `data["collab_rounds"]` -/
  rounds : Nat := 0
  /-- the instructions that are not applied yet (`TaskAmendment`), by order of admission -/
  amendments : List String := []
  view : Option (List Child) := none
  deriving DecidableEq, Repr

/-- The children that are not folded, by their places. -/
def unfoldedAt (children : List Child) : List Nat :=
  (List.range children.length).filter fun i => (children[i]?).any Child.unfolded

/-- The Task waits for its coordination children. -/
def Task.awaited (task : Task) : Bool := task.isPausedFor .await || task.isPausedFor .child

/-! ### Amendments -/

/-- `objective_amendment_blocker`. -/
def objectiveAmendmentBlocker (C : Settings) (executionActive : Bool) (task : Task) : Option String :=
  match task.checkpoint with
  | none =>
    if executionActive || task.identity.isSome then
      some "Execution has no checkpoint that can safely accept an objective amendment."
    else none
  | some checkpoint => C.rebaseBlocker task.identity checkpoint

/-- `_apply_instruction`, but the objective. -/
def applyInstruction (task : Task) : Task := {task with executionResult := none, feedback := none, lastError := none}

/-- `apply_pending_amendments`. -/
def applyPendingAmendments (C : Settings) (amendments : List String) (task : Task) : Except String Task :=
  if amendments.isEmpty then .ok task
  else match objectiveAmendmentBlocker C false task with
    | some blocker => .error blocker
    | none => .ok (amendments.foldl (fun task _ => applyInstruction task) task)

def maxPendingAmendments : Nat := 100

/-- `amend_task` of the parent, where a delegated child is active or an instruction is pending: the
instruction waits for the fan-in. -/
def deferAmendment (C : Settings) (instruction : String) (family : Family) : Option Family :=
  let parent := family.parent.task
  let active := family.children.any fun child =>
    child.delegated && !child.record.task.deleted && !child.record.task.status.terminal
  if parent.deleted || parent.status.terminal || (objectiveAmendmentBlocker C parent.lease.isSome parent).isSome ||
      !(active || !family.amendments.isEmpty) || decide (maxPendingAmendments ≤ family.amendments.length) then none
  else some {family with amendments := family.amendments ++ [instruction]}

/-! ### Fan-in -/

/-- The checks of `maybe_fan_in`, and the children that it goes on with. -/
def lookUp (family : Family) : Option (List Child) :=
  let parent := family.parent.task
  if parent.deleted || parent.status.terminal || !parent.awaited || parent.isHeldByUser then none
  else if !family.children.any Child.live || family.children.any Child.unsettled then none
  else if (unfoldedAt family.children).isEmpty then none
  else some family.children

def contribution (children : List Child) (i : Nat) : Option Contribution :=
  (children[i]?).map fun child => ⟨i, child.record.task.status, child.record.task.feedback⟩

/-- The parent, resumed. -/
def resumed (parent : Task) : Option Task := do
  let parent ← parent.on .resumeCollaboration
  let parent ← parent.on .routeToExecution
  return (parent.release .await).release .child

/-- The children that were read are marked as folded. -/
def markFolded (view children : List Child) : List Child :=
  children.mapIdx fun i child => if i ∈ unfoldedAt view then {child with fannedIn := true} else child

/-- The rest of `maybe_fan_in`. Pending instructions that cannot be applied are reported and nothing
else; the save is refused if one of the children to fold has changed. -/
def foldIn (C : Settings) (view : List Child) (family : Family) : Option Family :=
  match applyPendingAmendments C family.amendments family.parent.task with
  | .error blocker =>
    let diagnostic := "Pending instruction cannot yet be applied: " ++ blocker
    some {family with
      parent := {family.parent with task := {family.parent.task with lastError := some diagnostic}}, view := none}
  | .ok amended =>
    if (unfoldedAt view).all fun i => family.children[i]? == view[i]? then do
      let parent ← resumed amended
      return {
        parent := {family.parent with task := parent}
        children := markFolded view family.children
        context := family.context ++ (unfoldedAt view).filterMap (contribution view)
        rounds := family.rounds + 1
        amendments := []
        view := none }
    else some {family with view := none}

/-- `maybe_fan_in`, when nothing changes meanwhile. -/
def maybeFanIn (C : Settings) (family : Family) : Option Family :=
  match lookUp family with
  | none => some family
  | some view => foldIn C view family

/-! ### Children -/

/-- The answer of a peer, of a process or of an external party (`resolve_from_peer_task`,
`resolve_process_await`, `resolve_external_await`). -/
def resolveAwait (response : String) (failed : Bool) (child : Child) : Option Child :=
  if !child.awaits || child.record.task.deleted || child.record.task.status.terminal then some child
  else do
    let task ← child.record.task.on (if failed then .coordinationFailed else .coordinationSucceeded)
    return {child with record := {child.record with task := {task with feedback := some response}.clearPauses}}

/-- `resume_expired_awaits`, on one open await whose deadline is over. -/
def expireAwait (feedback : String) (child : Child) : Option Child :=
  if !child.awaits || !child.record.task.paused || child.record.task.deleted then some child
  else do
    let task ← child.record.task.on .coordinationFailed
    return {child with
      record := {child.record with task := {task with feedback := some feedback}.clearPauses}
      timedOut := true}

/-- `relay_late_answer`: the answer goes to the requester's room, once. -/
def relayLateAnswer (child : Child) : Child :=
  if child.timedOut && !child.complementSent then {child with complementSent := true} else child

/-- `delete`, of one Task: it is terminated where it is active or leased, and hidden. -/
def deleteChild (C : Settings) (now : Nat) (child : Child) : Option Child := do
  let record ← if !child.record.task.status.terminal || child.record.task.lease.isSome
    then forceTerminate C now child.record else some child.record
  return {child with record := {record with task := {record.task with deleted := true}}}

/-- A transaction of a child's own execution, of its users or of its scheduler. -/
def Child.run (C : Settings) (command : Command) (child : Child) : Option Child := do
  let record ← if command.isRetry then none else command.apply C child.record
  if record.task.deleted = child.record.task.deleted then return {child with record := record} else none

/-! ### The system -/

/-- The commands on the parent: those of its workers and of its users, but the end of its run. -/
def Command.ofParent : Command → Bool
  | .write .. | .finishRun .. | .retry _ | .claimInline .. => false
  | _ => true

theorem Command.ofParent_plain {command : Command} (h : command.ofParent = true) : command.rewrites = false := by
  cases command <;> first | rfl | cases h

inductive FamilyEvent
  | create (child : Child)
  | child (i : Nat) (command : Command)
  | resolve (i : Nat) (response : String) (failed : Bool)
  | expire (i : Nat) (feedback : String)
  | late (i : Nat)
  | delete (i : Nat) (now : Nat)
  | parent (command : Command)
  | endRun (result : ExecutionResult) (blocked : Bool) (feedback : Option String)
  | amend (instruction : String)
  | lookUp
  | foldIn
  deriving DecidableEq, Repr

namespace Family

/-- A transaction on one child. -/
def onChild (i : Nat) (f : Child → Option Child) (family : Family) : Option Family := do
  let child ← family.children[i]?
  let child ← f child
  return {family with children := family.children.set i child}

/-- A transaction on the parent, whose row is not locked. -/
def onParent (f : Record → Option Record) (family : Family) : Option Family := do
  let parent ← if family.view.isNone then f family.parent else none
  return {family with parent := parent}

/-- `suspend_on_pending_children` finds an await, or a delegated child, that is not folded. -/
def pending (kind : Child → Bool) (family : Family) : Bool :=
    family.children.any fun child => child.unfolded && kind child

/-- The committed transaction of an event. -/
def apply (C : Settings) (family : Family) : FamilyEvent → Option Family
  | .create child =>
    -- a tool of the parent's run asks a peer, starts a process or delegates
    if family.parent.task.status = .exec ∧ child.unfolded = true ∧ child.record.task.hasTerminalOutcome = false then
      some {family with children := family.children ++ [child]}
    else none
  | .child i command => family.onChild i (Child.run C command)
  | .resolve i response failed => family.onChild i (resolveAwait response failed)
  | .expire i feedback => family.onChild i (expireAwait feedback)
  | .late i => family.onChild i fun child => some (relayLateAnswer child)
  | .delete i now => family.onChild i (deleteChild C now)
  | .parent command => if command.ofParent then family.onParent (fun parent => command.apply C parent) else none
  | .endRun result blocked feedback =>
    family.onParent (Record.onTask (Tasks.finishRun result (family.pending Child.awaits)
      (family.pending Child.delegated) blocked feedback))
  | .amend instruction => if family.view.isNone then deferAmendment C instruction family else none
  | .lookUp => if family.view.isNone then some {family with view := Tasks.lookUp family} else none
  | .foldIn => do
    let view ← family.view
    Tasks.foldIn C view family

end Family

/-! ### What a child keeps -/

theorem outcome_terminal_status {task : Task} (h : task.hasTerminalOutcome = true) : task.status.terminal = true := by
  simp only [Task.hasTerminalOutcome, Bool.or_eq_true, Bool.and_eq_true, beq_iff_eq] at h
  obtain hsuccess | ⟨herror, _⟩ := h
  · rw [hsuccess]
    rfl
  · rw [herror]
    rfl

/-- No transaction but a retry leaves the phase of a terminal outcome. -/
theorem outcome_status {C : Settings} {record record' : Record} {command : Command}
    (houtcome : record.task.hasTerminalOutcome = true) (hretry : command.isRetry = false)
    (h : command.apply C record = some record') : record'.task.status = record.task.status := by
  have hterminal := outcome_terminal_status houtcome
  simp only [Task.hasTerminalOutcome, Bool.or_eq_true, Bool.and_eq_true, beq_iff_eq,
    Option.isNone_iff_eq_none] at houtcome
  have hclaim : command.retriesClaim C record = false := by
    obtain hsuccess | ⟨_, hlease⟩ := houtcome
    · cases command <;> simp [Command.retriesClaim, hsuccess]
    · cases command <;> simp [Command.retriesClaim, Task.leaseToken, expired, hlease]
  exact (StillEnded.step hterminal ⟨rfl, .inr rfl⟩ hretry hclaim h).status

/-- Nor changes a terminal outcome into a provisional one. -/
theorem outcome_kept {C : Settings} {record record' : Record} {command : Command}
    (houtcome : record.task.hasTerminalOutcome = true) (hretry : command.isRetry = false)
    (h : command.apply C record = some record') : record'.task.hasTerminalOutcome = true := by
  have hterminal := outcome_terminal_status houtcome
  have hstatus := outcome_status houtcome hretry h
  simp only [Task.hasTerminalOutcome, Bool.or_eq_true, Bool.and_eq_true, beq_iff_eq,
    Option.isNone_iff_eq_none] at houtcome
  obtain hsuccess | ⟨herror, hlease⟩ := houtcome
  · simp [Task.hasTerminalOutcome, hstatus, hsuccess]
  · have htoken : record'.task.leaseToken = none := by
      cases ledger_move h with
      | change h =>
        obtain hsame | hfree := h.leaseToken
        · exact hsame.trans (leaseToken_none hlease)
        · exact hfree
      | take token hscheduled _ _ _ _ _ =>
        have hactive := (scheduled_active hscheduled).2
        rw [hterminal] at hactive
        cases hactive
    have hfree : record'.task.lease = none := by simpa [Task.leaseToken] using htoken
    simp [Task.hasTerminalOutcome, hstatus, herror, hfree]

/-- What every transaction on a child keeps. -/
structure Child.Evolves (child child' : Child) : Prop where
  awaits : child'.awaits = child.awaits
  delegated : child'.delegated = child.delegated
  fannedIn : child'.fannedIn = child.fannedIn
  deleted : child.record.task.deleted = true → child'.record.task.deleted = true
  outcome : child.record.task.hasTerminalOutcome = true → child'.record.task.hasTerminalOutcome = true

theorem Child.Evolves.refl (child : Child) : Child.Evolves child child := ⟨rfl, rfl, rfl, id, id⟩

theorem Child.Evolves.trans {child child' child'' : Child} (h : Child.Evolves child child')
    (k : Child.Evolves child' child'') :
    Child.Evolves child child'' :=
  ⟨k.awaits.trans h.awaits, k.delegated.trans h.delegated, k.fannedIn.trans h.fannedIn,
    fun hdeleted => k.deleted (h.deleted hdeleted), fun houtcome => k.outcome (h.outcome houtcome)⟩

theorem not_outcome_of_active {task : Task} (h : task.status.terminal = false) : task.hasTerminalOutcome = false := by
  unfold TaskStatus.terminal at h
  simp only [Bool.or_eq_false_iff] at h
  simp [Task.hasTerminalOutcome, h.1, h.2]

/-- An event of coordination comes to an active Task. -/
theorem coordination_active {task task' : Task} (failed : Bool)
    (h : task.on (if failed then .coordinationFailed else .coordinationSucceeded) = some task') :
    task.status.terminal = false ∧ task'.deleted = task.deleted := by
  obtain ⟨hmem, rfl⟩ := Task.on_eq_some.mp h
  refine ⟨?_, rfl⟩
  cases failed <;> simp only [TRANSITIONS, Bool.false_eq_true, if_true, if_false, List.mem_cons,
    List.not_mem_nil, or_false] at hmem <;>
    rcases hmem with hstatus | hstatus | hstatus <;> rw [hstatus] <;> rfl

theorem resolveAwait_evolves {response : String} {failed : Bool} {child child' : Child}
    (h : resolveAwait response failed child = some child') : Child.Evolves child child' := by
  unfold resolveAwait at h
  split at h
  · cases h
    exact .refl _
  · obtain ⟨task, htask, h⟩ := Option.bind_eq_some_iff.mp h
    obtain ⟨hactive, hdeleted⟩ := coordination_active failed htask
    cases h
    refine ⟨rfl, rfl, rfl, fun hold => hdeleted.trans hold, fun hold => ?_⟩
    rw [not_outcome_of_active hactive] at hold
    cases hold

theorem expireAwait_evolves {feedback : String} {child child' : Child} (h : expireAwait feedback child = some child') :
    Child.Evolves child child' := by
  unfold expireAwait at h
  split at h
  · cases h
    exact .refl _
  · obtain ⟨task, htask, h⟩ := Option.bind_eq_some_iff.mp h
    obtain ⟨hactive, hdeleted⟩ := coordination_active true htask
    cases h
    refine ⟨rfl, rfl, rfl, fun hold => hdeleted.trans hold, fun hold => ?_⟩
    rw [not_outcome_of_active hactive] at hold
    cases hold

theorem relayLateAnswer_evolves (child : Child) : Child.Evolves child (relayLateAnswer child) := by
  unfold relayLateAnswer
  split
  · exact ⟨rfl, rfl, rfl, id, id⟩
  · exact .refl _

theorem deleteChild_evolves {C : Settings} {now : Nat} {child child' : Child}
    (h : deleteChild C now child = some child') :
    Child.Evolves child child' := by
  unfold deleteChild at h
  simp only [Option.bind_eq_bind, Option.pure_def] at h
  split at h
  · obtain ⟨record, hrecord, h⟩ := Option.bind_eq_some_iff.mp h
    have hforced : Command.apply C child.record (.forceTerminate now) = some record := hrecord
    cases h
    refine ⟨rfl, rfl, rfl, fun _ => rfl, fun houtcome => ?_⟩
    have hkept : record.task.hasTerminalOutcome = true := outcome_kept houtcome rfl hforced
    exact hkept
  · cases h
    exact ⟨rfl, rfl, rfl, fun _ => rfl, id⟩

theorem Child.run_evolves {C : Settings} {command : Command} {child child' : Child}
    (h : Child.run C command child = some child') :
    Child.Evolves child child' := by
  unfold Child.run at h
  simp only [Option.bind_eq_bind, Option.pure_def] at h
  split at h
  · cases h
  · next hretry =>
    obtain ⟨record, hrecord, h⟩ := Option.bind_eq_some_iff.mp h
    split at h
    · next hdeleted =>
      cases h
      exact ⟨rfl, rfl, rfl, fun hold => hdeleted.trans hold,
        fun houtcome => outcome_kept houtcome (Bool.eq_false_iff.mpr hretry) hrecord⟩
    · cases h

/-! ### What the parent's commands do -/

/-- The change neither makes the Task wait for children nor resumes it. -/
structure Quiet (task task' : Task) : Prop where
  reasons : ∀ reason ∈ task'.pauseReasons, reason ∈ task.pauseReasons ∨ reason = .user
  kept : task'.status.terminal = false → ∀ reason ∈ task.pauseReasons, reason ≠ .user → reason ≠ .plan →
    reason ∈ task'.pauseReasons
  dispatch : task.status = .dispatch → task.paused = true →
    task'.status = .dispatch ∨ task'.status.terminal = true ∧ task'.pauseReasons = []

theorem Quiet.of_same {task task' : Task} (hreasons : task'.pauseReasons = task.pauseReasons)
    (hstatus : task.status = .dispatch → task'.status = .dispatch) : Quiet task task' :=
  ⟨fun _ hmem => .inl (hreasons ▸ hmem), fun _ _ hmem _ _ => hreasons ▸ hmem, fun h _ => .inl (hstatus h)⟩

theorem Quiet.refl (task : Task) : Quiet task task := .of_same rfl id

theorem Quiet.ended {task task' : Task} (hreasons : task'.pauseReasons = []) (hstatus : task'.status.terminal = true) :
    Quiet task task' := by
  refine ⟨fun reason hmem => ?_, fun hactive => ?_, fun _ _ => .inr ⟨hstatus, hreasons⟩⟩
  · rw [hreasons] at hmem
    cases hmem
  · rw [hstatus] at hactive
    cases hactive

/-- A change that a suspended Task does not undergo. -/
theorem Quiet.unpaused {task task' : Task} (hpaused : task.paused = false)
    (hreasons : task'.pauseReasons = task.pauseReasons) :
    Quiet task task' := by
  refine ⟨fun _ hmem => .inl (hreasons ▸ hmem), fun _ _ hmem _ _ => hreasons ▸ hmem, fun _ h => ?_⟩
  rw [hpaused] at h
  cases h

theorem failClaim_quiet {C : Settings} {now token : Nat} {phase : TaskStatus} {exc : Raised} {record record' : Record}
    (h : failClaim C now token phase exc record = some record') : Quiet record.task record'.task := by
  cases failClaim_cases h with
  | stale _ => exact .refl _
  | success _ _ => exact .of_same rfl id
  | retry _ _ _ =>
    refine .of_same rfl fun hdispatch => ?_
    show resumePhase phase record.task.status = .dispatch
    rw [hdispatch]
    rfl
  | abandon _ _ _ => exact .ended rfl rfl

theorem interrupted_quiet {task task' : Task} (h : Quiet task task') : Quiet task (interrupted task') := by
  refine ⟨h.reasons, fun hactive => h.kept (interrupted_terminal task' ▸ hactive), fun hdispatch hpaused => ?_⟩
  obtain hsame | ⟨hterminal, hreasons⟩ := h.dispatch hdispatch hpaused
  · exact .inl ((interrupted_of_ne (by rw [hsame]; decide)).trans hsame)
  · exact .inr ⟨(interrupted_terminal task').trans hterminal, hreasons⟩

theorem suspend_user_quiet (task : Task) : Quiet task (task.suspend .user) := by
  refine ⟨fun _ hmem => Task.of_mem_suspend hmem, fun _ _ hmem _ _ => Task.mem_suspend hmem, fun hdispatch _ => ?_⟩
  rw [Task.suspend_eq]
  exact .inl hdispatch

theorem parent_quiet {C : Settings} {record record' : Record} {command : Command} (hparent : command.ofParent = true)
    (h : command.apply C record = some record') : Quiet record.task record'.task := by
  cases command with
  | claim now token =>
    obtain ⟨_, rfl⟩ := Record.insert_eq_some.mp h
    obtain hsame | ⟨hclaimable, htaken⟩ := claim_cases C now token record
    · rw [hsame]
      exact .refl _
    · rw [htaken]
      exact .unpaused (claimable_phase hclaimable).2 rfl
  | deferClaim now until' error =>
    cases h
    obtain hsame | ⟨hclaimable, hdeferred⟩ := deferClaim_cases now until' error record
    · rw [hsame]
      exact .refl _
    · rw [hdeferred]
      exact .unpaused (claimable_phase hclaimable).2 rfl
  | releaseUnstarted now token =>
    cases h
    obtain hsame | ⟨_, hreleased⟩ := releaseUnstartedClaim_cases C now token record
    · rw [hsame]
      exact .refl _
    · rw [hreleased]
      exact .of_same rfl id
  | renew now token =>
    cases h
    obtain hsame | ⟨_, hrenewed⟩ := renewLease_cases C now token record
    · rw [hsame]
      exact .refl _
    · rw [hrenewed]
      exact .of_same rfl id
  | complete now token =>
    obtain rfl | ⟨_, rfl⟩ := complete_cases h
    · exact .refl _
    · exact .of_same rfl id
  | fail now token exc =>
    obtain ⟨attempt, _, hfail⟩ := fail_eq_some h
    exact failClaim_quiet hfail
  | release now token =>
    obtain ⟨_, rfl⟩ | ⟨_, rfl⟩ := releaseCancelledClaim_cases h
    · exact .refl _
    · refine .of_same rfl fun hdispatch => ?_
      rw [hdispatch]
      rfl
  | finishInline now token error cancelled =>
    obtain ⟨_, rfl⟩ | ⟨_, _, _, _, _, _, _, _, hends⟩ := finishInlineExecution_cases h
    · exact .refl _
    · obtain ⟨_, hstatus, hreasons⟩ | ⟨_, hstatus, hreasons⟩ := hends
      · exact .ended hreasons (by rw [hstatus]; rfl)
      · exact .of_same hreasons hstatus.trans
  | recoverOrphan now =>
    obtain ⟨_, rfl⟩ | ⟨horphan, _, _, _, _, _, hreasons, _⟩ := recoverOrphan_cases h
    · exact .refl _
    · have hempty : record.task.pauseReasons = [] := by
        simp only [orphaned, Task.paused, Bool.and_eq_true, Bool.not_not, List.isEmpty_iff] at horphan
        exact horphan.1.2
      exact .unpaused (by simp [Task.paused, hempty]) (hreasons.trans hempty.symm)
  | recoverExpired now =>
    obtain rfl | ⟨attempt, _, _, hfail⟩ := recoverExpired_cases h
    · exact .refl _
    · exact failClaim_quiet hfail
  | start =>
    obtain ⟨hstart, _⟩ := Record.onTask_eq_some.mp h
    obtain ⟨hpaused, _, htask⟩ := startExecution_eq_some.mp hstart
    rw [htask]
    exact .unpaused hpaused rfl
  | activate now token fresh =>
    obtain ⟨_, hpaused, rfl⟩ := activateAgentRun_eq_some h
    exact .unpaused hpaused rfl
  | progress now token checkpoint result =>
    obtain ⟨_, rfl⟩ := persistAgentRunState_eq_some h
    exact .of_same rfl id
  | appendEvent token entry =>
    cases h
    exact .refl _
  | cancel =>
    obtain ⟨hcancel, _⟩ := Record.onTask_eq_some.mp h
    obtain ⟨_, hstatus, _, _, _, hreasons⟩ := requestCancellation_eq_some hcancel
    exact .ended hreasons (by rw [hstatus]; rfl)
  | forceTerminate now =>
    obtain ⟨_, _, hreasons, _, hstatus, _⟩ := forceTerminate_eq_some h
    refine .ended hreasons ?_
    rw [hstatus]
    split
    · next hterminal => exact hterminal
    · rfl
  | pause here =>
    obtain ⟨hpause, _⟩ := Record.onTask_eq_some.mp h
    obtain ⟨_, hsame⟩ | ⟨_, hheld | ⟨flag, hheld⟩⟩ := pauseTree_eq_some hpause
    · rw [hsame]
      exact .refl _
    · rw [hheld]
      exact suspend_user_quiet _
    · rw [hheld]
      have hquiet := suspend_user_quiet record.task
      exact interrupted_quiet ⟨hquiet.reasons, hquiet.kept, hquiet.dispatch⟩
  | resume childDone =>
    obtain ⟨reasons, rfl, hsubset, hkept⟩ := resume_eq_some h
    exact ⟨fun reason hmem => .inl (hsubset reason hmem), fun _ => hkept, fun hdispatch _ => .inl hdispatch⟩
  | preempt here =>
    obtain ⟨hpreempt, _⟩ := Record.onTask_eq_some.mp h
    rw [preempt_eq] at hpreempt
    rw [← Option.some.inj hpreempt]
    refine interrupted_quiet ?_
    cases here with
    | true => exact .refl _
    | false => exact .of_same rfl id
  | _ => cases hparent

end Galaris.Tasks
