import Galaris.Task.Family

/-! Fan-in (`maybe_fan_in`): every child is folded once, and no parent waits for ever.

A parent waits while it has a live child to fold, and the fan-in that holds its lock has
read children that only moved on since (`Inv`). A child that is deleted is no longer read:
when it was the last one to fold, nothing resumes its parent, and an instruction that cannot be
applied holds the fan-in back (`fan_in_while_unfolded`). -/
namespace Galaris.Tasks

open Transition

/-! ### The invariant -/

theorem mem_unfoldedAt {children : List Child} {i : Nat} :
    i ∈ unfoldedAt children ↔ ∃ child, children[i]? = some child ∧ child.unfolded = true := by
  rw [unfoldedAt, List.mem_filter, List.mem_range, Option.any_eq_true]
  constructor
  · exact fun h => h.2
  · rintro ⟨child, hchild, hunfolded⟩
    exact ⟨(List.getElem?_eq_some_iff.mp hchild).1, child, hchild, hunfolded⟩

theorem unfoldedAt_nodup (children : List Child) : (unfoldedAt children).Nodup := List.nodup_range.filter _

/-- The children as read, and as they are: none is new, and each has evolved. -/
structure Later (view children : List Child) : Prop where
  length : children.length = view.length
  evolves : ∀ (i : Nat) (child : Child), children[i]? = some child → ∃ old, view[i]? = some old ∧
    Child.Evolves old child

theorem Later.refl (children : List Child) : Later children children := ⟨rfl, fun _ child h => ⟨child, h, .refl child⟩⟩

theorem Later.set {view children : List Child} (h : Later view children) {i : Nat} {child child' : Child}
    (hchild : children[i]? = some child) (hevolves : Child.Evolves child child') :
    Later view (children.set i child') := by
  refine ⟨by rw [List.length_set]; exact h.length, fun j found hfound => ?_⟩
  by_cases hij : i = j
  · subst hij
    have hlt : i < children.length := (List.getElem?_eq_some_iff.mp hchild).1
    rw [List.getElem?_set_self hlt] at hfound
    cases hfound
    obtain ⟨old, hold, hbefore⟩ := h.evolves i child hchild
    exact ⟨old, hold, hbefore.trans hevolves⟩
  · rw [List.getElem?_set_ne hij] at hfound
    exact h.evolves j found hfound

namespace Family

/-- Of the family: a parent that waits for children has one to fold, what is folded is folded once, and
a fan-in in progress goes on from what it read. -/
structure Inv (family : Family) : Prop where
  waiting : family.parent.task.awaited = true →
    family.parent.task.status = .dispatch ∧ ∃ child ∈ family.children, child.unfolded = true
  once : (family.context.map Contribution.child).Nodup
  folded : ∀ entry ∈ family.context, ∃ child, family.children[entry.child]? = some child ∧ child.fannedIn = true
  locked : ∀ view, family.view = some view →
    lookUp {family with children := view} = some view ∧ Later view family.children

/-- The deletion hides the last child that the waiting parent has to fold. -/
def strands (family : Family) : FamilyEvent → Bool
  | .delete i _ => family.parent.task.awaited && (family.children[i]?).any Child.unfolded &&
      !(family.children.eraseIdx i).any Child.unfolded
  | _ => false

/-- The command ends the active parent of a child that is not folded. -/
def abandons (C : Settings) (family : Family) : FamilyEvent → Bool
  | .parent command => family.children.any Child.unfolded && !family.parent.task.status.terminal &&
      command.ends C family.parent
  | _ => false

/-- The fan-in finds pending instructions that the parent's run does not admit. -/
def refuses (C : Settings) (family : Family) : FamilyEvent → Bool
  | .foldIn => !family.amendments.isEmpty && (objectiveAmendmentBlocker C false family.parent.task).isSome
  | _ => false

theorem onChild_eq_some {i : Nat} {f : Child → Option Child} {family family' : Family} :
    family.onChild i f = some family' ↔ ∃ child child', family.children[i]? = some child ∧ f child = some child' ∧
      family' = {family with children := family.children.set i child'} := by
  simp only [onChild, Option.bind_eq_bind, Option.pure_def, Option.bind_eq_some_iff, Option.some.injEq]
  constructor
  · rintro ⟨child, hchild, child', hchild', rfl⟩
    exact ⟨child, child', hchild, hchild', rfl⟩
  · rintro ⟨child, child', hchild, hchild', rfl⟩
    exact ⟨child, hchild, child', hchild', rfl⟩

theorem onParent_eq_some {f : Record → Option Record} {family family' : Family} :
    family.onParent f = some family' ↔ family.view = none ∧ ∃ parent, f family.parent = some parent ∧
      family' = {family with parent := parent} := by
  unfold onParent
  cases hview : family.view with
  | some view => simp
  | none =>
    simp only [Option.isNone_none, if_true, Option.bind_eq_bind, Option.pure_def, Option.bind_eq_some_iff,
      Option.some.injEq, true_and]
    exact ⟨fun ⟨parent, hparent, heq⟩ => ⟨parent, hparent, heq.symm⟩,
      fun ⟨parent, hparent, heq⟩ => ⟨parent, hparent, heq.symm⟩⟩

end Family

/-- The child that an event is about. -/
def FamilyEvent.target : FamilyEvent → Option Nat
  | .child i _ | .resolve i _ _ | .expire i _ | .late i | .delete i _ => some i
  | _ => none

/-- A child that is not deleted stays so. -/
theorem resolveAwait_deleted {response : String} {failed : Bool} {child child' : Child}
    (h : resolveAwait response failed child = some child') :
    child'.record.task.deleted = child.record.task.deleted := by
  unfold resolveAwait at h
  split at h
  · cases h
    rfl
  · obtain ⟨task, htask, h⟩ := Option.bind_eq_some_iff.mp h
    cases h
    exact (coordination_active failed htask).2

theorem expireAwait_deleted {feedback : String} {child child' : Child} (h : expireAwait feedback child = some child') :
    child'.record.task.deleted = child.record.task.deleted := by
  unfold expireAwait at h
  split at h
  · cases h
    rfl
  · obtain ⟨task, htask, h⟩ := Option.bind_eq_some_iff.mp h
    cases h
    exact (coordination_active true htask).2

theorem relayLateAnswer_deleted (child : Child) :
    (relayLateAnswer child).record.task.deleted = child.record.task.deleted := by
  unfold relayLateAnswer
  split <;> rfl

theorem Child.run_deleted {C : Settings} {command : Command} {child child' : Child}
    (h : Child.run C command child = some child') :
    child'.record.task.deleted = child.record.task.deleted := by
  unfold Child.run at h
  simp only [Option.bind_eq_bind, Option.pure_def] at h
  split at h
  · cases h
  · obtain ⟨record, _, h⟩ := Option.bind_eq_some_iff.mp h
    split at h
    · next hdeleted =>
      cases h
      exact hdeleted
    · cases h

theorem deleteChild_deleted {C : Settings} {now : Nat} {child child' : Child}
    (h : deleteChild C now child = some child') :
    child'.record.task.deleted = true := by
  unfold deleteChild at h
  simp only [Option.bind_eq_bind, Option.pure_def] at h
  split at h
  · obtain ⟨record, _, h⟩ := Option.bind_eq_some_iff.mp h
    cases h
    rfl
  · cases h
    rfl

namespace Family

/-- What an event on a child does: it evolves that child, and hides it only if it deletes it. -/
structure ChildStep (family : Family) (event : FamilyEvent) (i : Nat) (child child' : Child)
    (family' : Family) : Prop where
  found : family.children[i]? = some child
  evolves : Child.Evolves child child'
  hidden : child'.record.task.deleted = child.record.task.deleted ∨ ∃ now, event = .delete i now
  result : family' = {family with children := family.children.set i child'}

theorem child_step {C : Settings} {family family' : Family} {event : FamilyEvent} {i : Nat}
    (htarget : event.target = some i)
    (h : family.apply C event = some family') : ∃ child child', ChildStep family event i child child' family' := by
  cases event with
  | child i' command =>
    cases htarget
    obtain ⟨child, child', hfound, hrun, hresult⟩ := onChild_eq_some.mp h
    exact ⟨child, child', hfound, Child.run_evolves hrun, .inl (Child.run_deleted hrun), hresult⟩
  | resolve i' response failed =>
    cases htarget
    obtain ⟨child, child', hfound, hresolved, hresult⟩ := onChild_eq_some.mp h
    exact ⟨child, child', hfound, resolveAwait_evolves hresolved, .inl (resolveAwait_deleted hresolved), hresult⟩
  | expire i' feedback =>
    cases htarget
    obtain ⟨child, child', hfound, hexpired, hresult⟩ := onChild_eq_some.mp h
    exact ⟨child, child', hfound, expireAwait_evolves hexpired, .inl (expireAwait_deleted hexpired), hresult⟩
  | late i' =>
    cases htarget
    obtain ⟨child, child', hfound, hrelayed, hresult⟩ := onChild_eq_some.mp h
    cases hrelayed
    exact ⟨child, _, hfound, relayLateAnswer_evolves child, .inl (relayLateAnswer_deleted child), hresult⟩
  | delete i' now =>
    cases htarget
    obtain ⟨child, child', hfound, hdeleted, hresult⟩ := onChild_eq_some.mp h
    exact ⟨child, child', hfound, deleteChild_evolves hdeleted, .inr ⟨now, rfl⟩, hresult⟩
  | _ => cases htarget

/-- Another child than the one of the event stays to be folded. -/
theorem unfolded_set {children : List Child} {i j : Nat} {child child' : Child} (hij : i ≠ j)
    (hchild : children[j]? = some child) (hunfolded : child.unfolded = true) :
    ∃ child ∈ children.set i child', child.unfolded = true := by
  refine ⟨child, List.mem_of_getElem? (i := j) ?_, hunfolded⟩
  rw [List.getElem?_set_ne hij]
  exact hchild

/-- The waiting parent still has a child to fold. -/
theorem ChildStep.waiting {family family' : Family} {event : FamilyEvent} {i : Nat} {child child' : Child}
    (h : ChildStep family event i child child' family') (hstrands : family.strands event = false)
    (hawaited : family.parent.task.awaited = true) (hunfolded : ∃ child ∈ family.children, child.unfolded = true) :
    ∃ child ∈ family.children.set i child', child.unfolded = true := by
  obtain ⟨other, hother, hfold⟩ := hunfolded
  obtain ⟨j, hj⟩ := List.mem_iff_getElem?.mp hother
  by_cases hij : i = j
  · subst hij
    have hsame : other = child := Option.some.inj (hj.symm.trans h.found)
    subst hsame
    obtain hkept | ⟨now, rfl⟩ := h.hidden
    · refine ⟨child', List.mem_of_getElem? (i := i) ?_, ?_⟩
      · rw [List.getElem?_set_self (List.getElem?_eq_some_iff.mp h.found).1]
      · rw [Child.unfolded, Child.live, h.evolves.awaits, h.evolves.delegated, h.evolves.fannedIn, hkept]
        exact hfold
    · -- the deleted child was to be folded, so that another one is
      have hrest : (family.children.eraseIdx i).any Child.unfolded = true := by
        simpa [strands, hawaited, h.found, hfold] using hstrands
      obtain ⟨rest, hmem, hrest⟩ := List.any_eq_true.mp hrest
      obtain ⟨k, hk, hfound⟩ := List.mem_eraseIdx_iff_getElem?.mp hmem
      exact unfolded_set (Ne.symm hk) hfound hrest
  · exact unfolded_set hij hj hfold

/-- What `maybe_fan_in` has checked of the parent and of the children it read. -/
structure Ready (family : Family) : Prop where
  kept : family.parent.task.deleted = false
  active : family.parent.task.status.terminal = false
  awaited : family.parent.task.awaited = true
  free : family.parent.task.isHeldByUser = false
  settled : ∀ child ∈ family.children, child.live = true → child.record.task.hasTerminalOutcome = true
  unfolded : ∃ child ∈ family.children, child.unfolded = true

theorem lookUp_eq_some {family : Family} {view : List Child} :
    lookUp family = some view ↔ view = family.children ∧ Ready family := by
  have hempty : (unfoldedAt family.children).isEmpty = false ↔ ∃ child ∈ family.children, child.unfolded = true := by
    rw [List.isEmpty_eq_false_iff_exists_mem]
    constructor
    · rintro ⟨i, hi⟩
      obtain ⟨child, hchild, hunfolded⟩ := mem_unfoldedAt.mp hi
      exact ⟨child, List.mem_of_getElem? hchild, hunfolded⟩
    · rintro ⟨child, hmem, hunfolded⟩
      obtain ⟨i, hi⟩ := List.mem_iff_getElem?.mp hmem
      exact ⟨i, mem_unfoldedAt.mpr ⟨child, hi, hunfolded⟩⟩
  have hsettled : family.children.any Child.unsettled = false ↔
      ∀ child ∈ family.children, child.live = true → child.record.task.hasTerminalOutcome = true := by
    simp [Child.unsettled]
  unfold lookUp
  dsimp only
  constructor
  · intro h
    split at h
    · cases h
    · next hparent =>
      split at h
      · cases h
      · next hchildren =>
        split at h
        · cases h
        · next hnone =>
          cases h
          simp only [Bool.or_eq_true, Bool.not_eq_true', not_or, Bool.not_eq_true,
            Bool.not_eq_false] at hparent hchildren hnone
          exact ⟨rfl, hparent.1.1.1, hparent.1.1.2, hparent.1.2, hparent.2, hsettled.mp hchildren.2, hempty.mp hnone⟩
  · rintro ⟨rfl, hready⟩
    obtain ⟨child, hmem, hunfolded⟩ := hready.unfolded
    have hlive : family.children.any Child.live = true := by
      refine List.any_eq_true.mpr ⟨child, hmem, ?_⟩
      simp only [Child.unfolded, Bool.and_eq_true] at hunfolded
      exact hunfolded.1
    rw [if_neg (by simp [hready.kept, hready.active, hready.awaited, hready.free]),
      if_neg (by simp [hlive, hsettled.mpr hready.settled]), if_neg (by simp [hempty.mpr hready.unfolded])]

/-- The parent that was ready stays so, and the children that it waits for have settled. -/
theorem Inv.ready {family : Family} (h : family.Inv) {view : List Child} (hview : family.view = some view) :
    Ready {family with children := view} := (lookUp_eq_some.mp (h.locked view hview).1).2

/-- Every live child of a fan-in in progress has a terminal outcome. -/
theorem Inv.settled {family : Family} (h : family.Inv) {view : List Child} (hview : family.view = some view)
    {child : Child} (hmem : child ∈ family.children) (hlive : child.live = true) :
    child.record.task.hasTerminalOutcome = true := by
  obtain ⟨i, hi⟩ := List.mem_iff_getElem?.mp hmem
  obtain ⟨old, hold, hevolves⟩ := (h.locked view hview).2.evolves i child hi
  refine hevolves.outcome ((h.ready hview).settled old (List.mem_of_getElem? hold) ?_)
  simp only [Child.live, Bool.and_eq_true, Bool.not_eq_true'] at hlive ⊢
  refine ⟨by rw [← hevolves.awaits, ← hevolves.delegated]; exact hlive.1, ?_⟩
  cases hdeleted : old.record.task.deleted with
  | false => rfl
  | true =>
    rw [hevolves.deleted hdeleted] at hlive
    cases hlive.2

/-- A resumed parent waits for no child. -/
theorem resumed_eq_some {task task' : Task} (h : resumed task = some task') :
    task'.awaited = false ∧ task'.status = .dispatch := by
  obtain ⟨collaborated, hcollaborated, h⟩ := Option.bind_eq_some_iff.mp h
  obtain ⟨_, rfl⟩ := Task.on_eq_some.mp hcollaborated
  obtain ⟨routed, hrouted, h⟩ := Option.bind_eq_some_iff.mp h
  obtain ⟨_, rfl⟩ := Task.on_eq_some.mp hrouted
  cases h
  refine ⟨?_, rfl⟩
  simp [Task.awaited, Task.isPausedFor, Task.release]

/-- The ways a fan-in in progress ends. -/
inductive FoldEnd (family : Family) (view : List Child) : Family → Prop
  | refused (diagnostic : String) : FoldEnd family view {family with
      parent := {family.parent with task := {family.parent.task with lastError := some diagnostic}}, view := none}
  | changed : FoldEnd family view {family with view := none}
  | folded (amended task : Task) :
    (∀ i ∈ unfoldedAt view, family.children[i]? = view[i]?) → resumed amended = some task →
    FoldEnd family view {
      parent := {family.parent with task := task}
      children := markFolded view family.children
      context := family.context ++ (unfoldedAt view).filterMap (contribution view)
      rounds := family.rounds + 1
      amendments := []
      view := none}

theorem foldIn_end {C : Settings} {view : List Child} {family family' : Family}
    (h : foldIn C view family = some family') : FoldEnd family view family' := by
  unfold foldIn at h
  split at h
  · cases h
    exact .refused _
  · next amended _ =>
    split at h
    · next hsame =>
      obtain ⟨task, htask, h⟩ := Option.bind_eq_some_iff.mp h
      cases h
      exact .folded amended task (fun i hi => by simpa using List.all_eq_true.mp hsame i hi) htask
    · cases h
      exact .changed

/-- What is applied of pending instructions leaves the phase and the pauses. -/
theorem applyPendingAmendments_ok {C : Settings} {amendments : List String} {task amended : Task}
    (h : applyPendingAmendments C amendments task = .ok amended) :
    amended.status = task.status ∧ amended.pauseReasons = task.pauseReasons := by
  have hfold : ∀ (amendments : List String) (task : Task),
      (amendments.foldl (fun task _ => applyInstruction task) task).status = task.status ∧
        (amendments.foldl (fun task _ => applyInstruction task) task).pauseReasons = task.pauseReasons := by
    intro amendments
    induction amendments with
    | nil => exact fun task => ⟨rfl, rfl⟩
    | cons instruction rest ih => exact fun task => ih (applyInstruction task)
  unfold applyPendingAmendments at h
  split at h
  · cases h
    exact ⟨rfl, rfl⟩
  · split at h
    · cases h
    · cases h
      exact hfold amendments task

/-- They are applied, unless the fan-in refuses them. -/
theorem applyPendingAmendments_cases (C : Settings) (family : Family) :
    (family.refuses C .foldIn = false ∧ ∃ amended,
      applyPendingAmendments C family.amendments family.parent.task = .ok amended) ∨
      family.refuses C .foldIn = true ∧ ∃ blocker,
          applyPendingAmendments C family.amendments family.parent.task = .error blocker := by
  unfold refuses applyPendingAmendments
  cases hempty : family.amendments.isEmpty with
  | true => exact .inl ⟨rfl, _, rfl⟩
  | false =>
    cases hblocker : objectiveAmendmentBlocker C false family.parent.task with
    | none => exact .inl ⟨rfl, _, rfl⟩
    | some blocker => exact .inr ⟨rfl, blocker, rfl⟩

/-- The children folded are those that were to be folded. -/
theorem contributions (view : List Child) :
    ((unfoldedAt view).filterMap (contribution view)).map Contribution.child = unfoldedAt view := by
  rw [List.map_filterMap]
  calc (unfoldedAt view).filterMap (fun i => (contribution view i).map Contribution.child)
      = (unfoldedAt view).filterMap some := by
        refine List.filterMap_congr fun i hi => ?_
        obtain ⟨child, hchild, _⟩ := mem_unfoldedAt.mp hi
        simp [contribution, hchild]
    _ = unfoldedAt view := List.filterMap_some

theorem markFolded_get {view children : List Child} {i : Nat} {child : Child} (hchild : children[i]? = some child) :
    (markFolded view children)[i]? = some (if i ∈ unfoldedAt view then {child with fannedIn := true} else child) := by
  simp [markFolded, List.getElem?_mapIdx, hchild]

/-- The parent changes, and its row is not locked. -/
theorem Inv.parent {family : Family} (h : family.Inv) (hview : family.view = none) {parent : Record}
    (hwaiting : parent.task.awaited = true →
      parent.task.status = .dispatch ∧ ∃ child ∈ family.children, child.unfolded = true) :
    Inv {family with parent := parent} := by
  refine ⟨hwaiting, h.once, h.folded, fun view hsome => ?_⟩
  rw [hview] at hsome
  cases hsome

theorem awaited_of_quiet {task task' : Task} (h : Quiet task task')
    (hawaited : task'.awaited = true) : task.awaited = true := by
  simp only [Task.awaited, Bool.or_eq_true, Task.isPausedFor_iff] at hawaited ⊢
  obtain hawait | hchild := hawaited
  · obtain hold | huser := h.reasons _ hawait
    · exact .inl hold
    · cases huser
  · obtain hold | huser := h.reasons _ hchild
    · exact .inr hold
    · cases huser

theorem paused_of_awaited {task : Task} (h : task.awaited = true) : task.paused = true := by
  cases hreasons : task.pauseReasons with
  | nil => simp [Task.awaited, Task.isPausedFor, hreasons] at h
  | cons reason rest => simp [Task.paused, hreasons]

theorem not_awaited_of_nil {task : Task} (h : task.pauseReasons = []) : task.awaited = false := by
  simp [Task.awaited, Task.isPausedFor, h]

theorem awaited_of_waits {task task' : Task} (h : Waits task task')
    (hawaited : task'.awaited = true) : task.awaited = true := by
  simp only [Task.awaited, Bool.or_eq_true, Task.isPausedFor_iff] at hawaited ⊢
  obtain hawait | hchild := hawaited
  · obtain hold | hnew | hnew := h.added _ hawait
    · exact .inl hold
    · cases hnew
    · cases hnew
  · obtain hold | hnew | hnew := h.added _ hchild
    · exact .inr hold
    · cases hnew
    · cases hnew

theorem pending_unfolded {family : Family} {kind : Child → Bool} (h : family.pending kind = true) :
    ∃ child ∈ family.children, child.unfolded = true := by
  obtain ⟨child, hmem, hchild⟩ := List.any_eq_true.mp h
  exact ⟨child, hmem, (Bool.and_eq_true_iff.mp hchild).1⟩

theorem deferAmendment_eq_some {C : Settings} {instruction : String} {family family' : Family}
    (h : deferAmendment C instruction family = some family') :
    ∃ amendments, family' = {family with amendments := amendments} := by
  unfold deferAmendment at h
  dsimp only at h
  split at h
  · cases h
  · exact ⟨_, (Option.some.inj h).symm⟩

/-- The invariant survives a fan-in. -/
theorem Inv.fold {family family' : Family} (h : family.Inv) {view : List Child}
    (hend : FoldEnd family view family') : family'.Inv := by
  cases hend with
  | refused diagnostic => exact ⟨h.waiting, h.once, h.folded, nofun⟩
  | changed => exact ⟨h.waiting, h.once, h.folded, nofun⟩
  | folded amended task hsame hresumed =>
    refine ⟨fun hawaited => ?_, ?_, ?_, nofun⟩
    · rw [(resumed_eq_some hresumed).1] at hawaited
      cases hawaited
    · show ((family.context ++ (unfoldedAt view).filterMap (contribution view)).map Contribution.child).Nodup
      rw [List.map_append, contributions]
      refine List.nodup_append.mpr ⟨h.once, unfoldedAt_nodup view, fun i hold j hnew heq => ?_⟩
      -- what was folded is marked, and what is folded now was read without the mark
      subst heq
      obtain ⟨entry, hentry, rfl⟩ := List.mem_map.mp hold
      obtain ⟨child, hchild, hfolded⟩ := h.folded entry hentry
      obtain ⟨read, hread, hunfolded⟩ := mem_unfoldedAt.mp hnew
      have hsameChild : child = read := Option.some.inj (hchild.symm.trans ((hsame _ hnew).trans hread))
      simp [← hsameChild, Child.unfolded, hfolded] at hunfolded
    · intro entry hentry
      obtain hold | hnew := List.mem_append.mp hentry
      · obtain ⟨child, hchild, hfolded⟩ := h.folded entry hold
        refine ⟨_, markFolded_get hchild, ?_⟩
        split
        · rfl
        · exact hfolded
      · have hmem : entry.child ∈ unfoldedAt view := by
          rw [← contributions view]
          exact List.mem_map_of_mem hnew
        obtain ⟨child, hread, _⟩ := mem_unfoldedAt.mp hmem
        refine ⟨_, markFolded_get ((hsame _ hmem).trans hread), ?_⟩
        rw [if_pos hmem]

theorem Inv.step {C : Settings} {family family' : Family} {event : FamilyEvent} (h : family.Inv)
    (hstrands : family.strands event = false) (happly : family.apply C event = some family') : family'.Inv := by
  cases htarget : event.target with
  | some i =>
    obtain ⟨child, child', hstep⟩ := child_step htarget happly
    obtain ⟨hfound, hevolves, _, rfl⟩ := id hstep
    refine ⟨fun hawaited => ?_, h.once, fun entry hentry => ?_, fun view hview => ?_⟩
    · obtain ⟨hdispatch, hunfolded⟩ := h.waiting hawaited
      exact ⟨hdispatch, hstep.waiting hstrands hawaited hunfolded⟩
    · obtain ⟨folded, hfolded, hmark⟩ := h.folded entry hentry
      by_cases hij : i = entry.child
      · subst hij
        refine ⟨child', List.getElem?_set_self (List.getElem?_eq_some_iff.mp hfound).1, ?_⟩
        rw [hevolves.fannedIn, ← Option.some.inj (hfolded.symm.trans hfound)]
        exact hmark
      · exact ⟨folded, (List.getElem?_set_ne hij).trans hfolded, hmark⟩
    · obtain ⟨hlookUp, hlater⟩ := h.locked view hview
      exact ⟨hlookUp, hlater.set hfound hevolves⟩
  | none =>
    cases event with
    | create child =>
      simp only [apply] at happly
      split at happly
      · next hguard =>
        cases happly
        have hidle : family.parent.task.awaited ≠ true := by
          intro hawaited
          have hdispatch := (h.waiting hawaited).1
          rw [hguard.1] at hdispatch
          cases hdispatch
        refine ⟨fun hawaited => absurd hawaited hidle, h.once, fun entry hentry => ?_, fun view hview => ?_⟩
        · obtain ⟨folded, hfolded, hmark⟩ := h.folded entry hentry
          refine ⟨folded, ?_, hmark⟩
          exact (List.getElem?_append_left (List.getElem?_eq_some_iff.mp hfolded).1).trans hfolded
        · exact absurd (h.ready hview).awaited hidle
      · cases happly
    | parent command =>
      simp only [apply] at happly
      split at happly
      · next hparent =>
        obtain ⟨hview, parent, hcommand, rfl⟩ := onParent_eq_some.mp happly
        have hquiet := parent_quiet hparent hcommand
        refine h.parent hview fun hawaited => ?_
        have hbefore := awaited_of_quiet hquiet hawaited
        obtain ⟨hdispatch, hunfolded⟩ := h.waiting hbefore
        obtain hsame | ⟨_, hnil⟩ := hquiet.dispatch hdispatch (paused_of_awaited hbefore)
        · exact ⟨hsame, hunfolded⟩
        · rw [not_awaited_of_nil hnil] at hawaited
          cases hawaited
      · cases happly
    | endRun result blocked feedback =>
      obtain ⟨hview, parent, hrun, rfl⟩ := onParent_eq_some.mp happly
      obtain ⟨hfinish, _⟩ := Record.onTask_eq_some.mp hrun
      refine h.parent hview fun hawaited => ?_
      cases finishRun_cases hfinish with
      | waits _ hwaits =>
        obtain ⟨hdispatch, hunfolded⟩ := h.waiting (awaited_of_waits hwaits hawaited)
        refine ⟨?_, hunfolded⟩
        rw [hwaits.status, interrupted_of_ne (by rw [hdispatch]; decide)]
        exact hdispatch
      | children hpending _ _ _ hdispatch _ =>
        refine ⟨hdispatch, ?_⟩
        obtain hawaits | hdelegated := Bool.or_eq_true_iff.mp hpending
        · exact pending_unfolded hawaits
        · exact pending_unfolded hdelegated
      | outcome _ _ _ _ _ hnil =>
        rw [not_awaited_of_nil hnil] at hawaited
        cases hawaited
    | amend instruction =>
      simp only [apply] at happly
      split at happly
      · next hview =>
        obtain ⟨amendments, rfl⟩ := deferAmendment_eq_some happly
        refine ⟨h.waiting, h.once, h.folded, fun view hsome => ?_⟩
        rw [Option.isNone_iff_eq_none.mp hview] at hsome
        cases hsome
      · cases happly
    | lookUp =>
      simp only [apply] at happly
      split at happly
      · cases happly
        refine ⟨h.waiting, h.once, h.folded, fun view hview => ?_⟩
        obtain ⟨rfl, hready⟩ := lookUp_eq_some.mp hview
        exact ⟨lookUp_eq_some.mpr ⟨rfl, hready.kept, hready.active, hready.awaited, hready.free,
          hready.settled, hready.unfolded⟩,
          .refl _⟩
      · cases happly
    | foldIn =>
      obtain ⟨view, _, hfold⟩ := Option.bind_eq_some_iff.mp happly
      exact h.fold (foldIn_end hfold)
    | _ => cases htarget

/-- A parent that no fan-in has read yet, and that waits for no child. -/
structure Founded (family : Family) : Prop where
  idle : family.parent.task.awaited = false
  context : family.context = []
  view : family.view = none

theorem Founded.inv {family : Family} (h : Founded family) : family.Inv := by
  refine ⟨fun hawaited => ?_, by rw [h.context]; exact List.nodup_nil, fun entry hentry => ?_, fun view hview => ?_⟩
  · rw [h.idle] at hawaited
    cases hawaited
  · rw [h.context] at hentry
    cases hentry
  · rw [h.view] at hview
    cases hview

/-! ### What fan-in promises -/

/-- The parent of an event on a child, or of a look at the children, is untouched. -/
theorem parent_of_child {C : Settings} {family family' : Family} {event : FamilyEvent} {i : Nat}
    (htarget : event.target = some i)
    (happly : family.apply C event = some family') : family'.parent = family.parent := by
  obtain ⟨child, child', hstep⟩ := child_step htarget happly
  rw [hstep.result]

/-- Only a fan-in resumes the parent, and it has seen every live child settled. -/
theorem Inv.resumption {C : Settings} {family family' : Family} {event : FamilyEvent} (h : family.Inv)
    (happly : family.apply C event = some family') (hawaited : family.parent.task.awaited = true)
    (hresumed : family'.parent.task.awaited = false) (hactive : family'.parent.task.status.terminal = false) :
    ∀ child ∈ family.children, child.live = true → child.record.task.hasTerminalOutcome = true := by
  have hchanged : ¬family'.parent.task.awaited = family.parent.task.awaited := by
    rw [hawaited, hresumed]
    decide
  cases htarget : event.target with
  | some i => exact absurd (by rw [parent_of_child htarget happly]) hchanged
  | none =>
    cases event with
    | create child =>
      simp only [apply] at happly
      split at happly <;> cases happly
      exact absurd rfl hchanged
    | parent command =>
      simp only [apply] at happly
      split at happly
      · next hparent =>
        obtain ⟨_, parent, hcommand, rfl⟩ := onParent_eq_some.mp happly
        have hkept := (parent_quiet hparent hcommand).kept hactive
        refine absurd (Eq.trans ?_ hawaited.symm) hchanged
        simp only [Task.awaited, Bool.or_eq_true, Task.isPausedFor_iff] at hawaited ⊢
        exact hawaited.imp (fun hawait => hkept _ hawait (by decide) (by decide)) fun hchild =>
          hkept _ hchild (by decide) (by decide)
      · cases happly
    | endRun result blocked feedback =>
      obtain ⟨_, parent, hrun, rfl⟩ := onParent_eq_some.mp happly
      obtain ⟨hfinish, _⟩ := Record.onTask_eq_some.mp hrun
      have hdispatch := (h.waiting hawaited).1
      cases finishRun_cases hfinish with
      | waits _ hwaits =>
        refine absurd (Eq.trans ?_ hawaited.symm) hchanged
        simp only [Task.awaited, Bool.or_eq_true, Task.isPausedFor_iff] at hawaited ⊢
        exact hawaited.imp (fun hawait => hwaits.reasons _ hawait (by decide)) fun hchild =>
          hwaits.reasons _ hchild (by decide)
      | children _ _ hexec _ _ _ =>
        rw [hdispatch] at hexec
        cases hexec
      | outcome _ _ hexec _ _ _ =>
        rw [hdispatch] at hexec
        cases hexec
    | amend instruction =>
      simp only [apply] at happly
      split at happly
      · obtain ⟨amendments, rfl⟩ := deferAmendment_eq_some happly
        exact absurd rfl hchanged
      · cases happly
    | lookUp =>
      simp only [apply] at happly
      split at happly <;> cases happly
      exact absurd rfl hchanged
    | foldIn =>
      obtain ⟨view, hview, _⟩ := Option.bind_eq_some_iff.mp happly
      exact fun child hmem hlive => h.settled hview hmem hlive
    | _ => cases htarget

/-- The terminal outcome of the parent is final. -/
theorem Inv.final {C : Settings} {family family' : Family} {event : FamilyEvent} (h : family.Inv)
    (happly : family.apply C event = some family') (houtcome : family.parent.task.hasTerminalOutcome = true) :
    family'.parent.task.status = family.parent.task.status := by
  have hterminal := outcome_terminal_status houtcome
  cases htarget : event.target with
  | some i => rw [parent_of_child htarget happly]
  | none =>
    cases event with
    | create child =>
      simp only [apply] at happly
      split at happly <;> cases happly
      rfl
    | parent command =>
      simp only [apply] at happly
      split at happly
      · next hparent =>
        obtain ⟨_, parent, hcommand, rfl⟩ := onParent_eq_some.mp happly
        refine outcome_status houtcome ?_ hcommand
        cases command <;> first | rfl | cases hparent
      · cases happly
    | endRun result blocked feedback =>
      obtain ⟨_, parent, hrun, rfl⟩ := onParent_eq_some.mp happly
      obtain ⟨hfinish, _⟩ := Record.onTask_eq_some.mp hrun
      obtain hexec | hsame := (finishRun_frame hfinish).exec
      · rw [hexec] at hterminal
        cases hterminal
      · exact hsame
    | amend instruction =>
      simp only [apply] at happly
      split at happly
      · obtain ⟨amendments, rfl⟩ := deferAmendment_eq_some happly
        rfl
      · cases happly
    | lookUp =>
      simp only [apply] at happly
      split at happly <;> cases happly
      rfl
    | foldIn =>
      obtain ⟨view, hview, _⟩ := Option.bind_eq_some_iff.mp happly
      have hactive := (h.ready hview).active
      rw [hterminal] at hactive
      cases hactive
    | _ => cases htarget

/-- The parent becomes terminal when every child is folded. -/
theorem ended_folded {C : Settings} {family family' : Family} {event : FamilyEvent}
    (habandons : family.abandons C event = false) (happly : family.apply C event = some family')
    (hactive : family.parent.task.status.terminal = false) (hterminal : family'.parent.task.status.terminal = true) :
    ∀ child ∈ family'.children, child.unfolded = false := by
  have hchanged : family'.parent.task.status ≠ family.parent.task.status := by
    intro hsame
    rw [hsame, hactive] at hterminal
    cases hterminal
  cases htarget : event.target with
  | some i => exact absurd (by rw [parent_of_child htarget happly]) hchanged
  | none =>
    cases event with
    | create child =>
      simp only [apply] at happly
      split at happly <;> cases happly
      exact absurd rfl hchanged
    | parent command =>
      simp only [apply] at happly
      split at happly
      · next hparent =>
        obtain ⟨_, parent, hcommand, rfl⟩ := onParent_eq_some.mp happly
        cases hends : command.ends C family.parent with
        | true => simpa [abandons, hactive, hends] using habandons
        | false =>
          rw [active_kept (Command.ofParent_plain hparent) hends hactive hcommand] at hterminal
          cases hterminal
      · cases happly
    | endRun result blocked feedback =>
      obtain ⟨_, parent, hrun, rfl⟩ := onParent_eq_some.mp happly
      obtain ⟨hfinish, _⟩ := Record.onTask_eq_some.mp hrun
      cases finishRun_cases hfinish with
      | waits _ hwaits =>
        rw [hwaits.status, interrupted_terminal, hactive] at hterminal
        cases hterminal
      | children _ _ _ _ hdispatch _ =>
        rw [hdispatch] at hterminal
        cases hterminal
      | outcome hnone _ _ _ _ _ =>
        intro child hmem
        refine Bool.eq_false_iff.mpr fun hunfolded => ?_
        rw [Bool.or_eq_false_iff] at hnone
        simp only [pending, List.any_eq_false, Bool.and_eq_true, not_and, Bool.not_eq_true] at hnone
        have hkind : child.awaits = false ∧ child.delegated = false :=
            ⟨hnone.1 child hmem hunfolded, hnone.2 child hmem hunfolded⟩
        simp [Child.unfolded, Child.live, hkind] at hunfolded
    | amend instruction =>
      simp only [apply] at happly
      split at happly
      · obtain ⟨amendments, rfl⟩ := deferAmendment_eq_some happly
        exact absurd rfl hchanged
      · cases happly
    | lookUp =>
      simp only [apply] at happly
      split at happly <;> cases happly
      exact absurd rfl hchanged
    | foldIn =>
      obtain ⟨view, _, hfold⟩ := Option.bind_eq_some_iff.mp happly
      cases foldIn_end hfold with
      | refused diagnostic => exact absurd rfl hchanged
      | changed => exact absurd rfl hchanged
      | folded amended task _ hresumed =>
        have hdispatch := (resumed_eq_some hresumed).2
        rw [show task.status = .dispatch from hdispatch] at hterminal
        cases hterminal
    | _ => cases htarget

/-- Once every live child has settled, a fan-in resumes the parent that no user holds. -/
theorem Inv.resumes {C : Settings} {family : Family} (h : family.Inv) (hadmits : family.refuses C .foldIn = false)
    (hkept : family.parent.task.deleted = false) (hfree : family.parent.task.isHeldByUser = false)
    (hsettled : ∀ child ∈ family.children, child.live = true → child.record.task.hasTerminalOutcome = true) :
    ∃ family', maybeFanIn C family = some family' ∧ family'.parent.task.awaited = false := by
  cases hawaited : family.parent.task.awaited with
  | false =>
    have hnone : lookUp family = none := by
      cases hlookUp : lookUp family with
      | none => rfl
      | some view =>
        have hwaits := (lookUp_eq_some.mp hlookUp).2.awaited
        rw [hawaited] at hwaits
        cases hwaits
    exact ⟨family, by rw [maybeFanIn, hnone], hawaited⟩
  | true =>
    obtain ⟨hdispatch, hunfolded⟩ := h.waiting hawaited
    have hready : Ready family := ⟨hkept, by rw [hdispatch]; rfl, hawaited, hfree, hsettled, hunfolded⟩
    have hlookUp : lookUp family = some family.children := lookUp_eq_some.mpr ⟨rfl, hready⟩
    obtain ⟨_, amended, hamended⟩ | ⟨hrefuses, _⟩ := applyPendingAmendments_cases C family
    · have hstatus : amended.status = .dispatch := (applyPendingAmendments_ok hamended).1.trans hdispatch
      obtain ⟨task, htask⟩ : ∃ task, resumed amended = some task := by
        refine ⟨((amended.release .await).release .child), ?_⟩
        simp [resumed, Task.on, transition, TRANSITIONS, hstatus, Task.release]
      rw [maybeFanIn, hlookUp]
      simp only [foldIn, hamended, beq_self_eq_true, List.all_eq_true, implies_true, if_true, htask,
        Option.bind_eq_bind,
        Option.bind_some, Option.pure_def]
      exact ⟨_, rfl, (resumed_eq_some htask).1⟩
    · rw [hadmits] at hrefuses
      cases hrefuses

/-- A fan-in that refuses the pending instructions reports them: the parent waits on, and the next fan-in
refuses them again. -/
theorem refuses_waits {C : Settings} {family : Family} (hrefuses : family.refuses C .foldIn = true) :
    ∃ family', maybeFanIn C family = some family' ∧ family'.parent.task.pauseReasons = family.parent.task.pauseReasons ∧
      family'.children = family.children ∧ family'.refuses C .foldIn = true := by
  rw [maybeFanIn]
  cases lookUp family with
  | none => exact ⟨family, rfl, rfl, rfl, hrefuses⟩
  | some view =>
    obtain ⟨hadmits, _⟩ | ⟨_, blocker, hblocker⟩ := applyPendingAmendments_cases C family
    · rw [hadmits] at hrefuses
      cases hrefuses
    · simp only [foldIn, hblocker]
      exact ⟨_, rfl, rfl, rfl, hrefuses⟩

/-- A parent without a child to fold is not resumed. -/
theorem stranded {C : Settings} {family : Family} (h : ∀ child ∈ family.children, child.unfolded = false) :
    maybeFanIn C family = some family := by
  have hnone : lookUp family = none := by
    cases hlookUp : lookUp family with
    | none => rfl
    | some view =>
      obtain ⟨child, hmem, hunfolded⟩ := (lookUp_eq_some.mp hlookUp).2.unfolded
      rw [h child hmem] at hunfolded
      cases hunfolded
  rw [maybeFanIn, hnone]

/-- A deletion that hides the last child to fold leaves its parent waiting. -/
theorem strands_waits {C : Settings} {family family' : Family} {event : FamilyEvent}
    (hstrands : family.strands event = true)
    (happly : family.apply C event = some family') :
    family'.parent.task.awaited = true ∧ maybeFanIn C family' = some family' := by
  unfold strands at hstrands
  split at hstrands
  · next i now =>
    simp only [Bool.and_eq_true, Bool.not_eq_true', List.any_eq_false, Bool.not_eq_true] at hstrands
    obtain ⟨⟨hawaited, _⟩, hrest⟩ := hstrands
    obtain ⟨child, child', hfound, hdeleted, rfl⟩ := onChild_eq_some.mp happly
    refine ⟨hawaited, stranded fun other hmem => ?_⟩
    obtain ⟨j, hj⟩ := List.mem_iff_getElem?.mp hmem
    by_cases hij : i = j
    · subst hij
      have hhidden : child'.record.task.deleted = true := deleteChild_deleted hdeleted
      have hlt : i < family.children.length := (List.getElem?_eq_some_iff.mp hfound).1
      have hsame : child' = other := Option.some.inj ((List.getElem?_set_self hlt).symm.trans hj)
      simp [← hsame, Child.unfolded, Child.live, hhidden]
    · exact hrest other (List.mem_eraseIdx_iff_getElem?.mpr ⟨j, Ne.symm hij, (List.getElem?_set_ne hij).symm.trans hj⟩)
  · cases hstrands

/-- A command that ends the parent of a child to fold does make it terminal. -/
theorem abandons_ends {C : Settings} {family family' : Family} {event : FamilyEvent}
    (habandons : family.abandons C event = true)
    (happly : family.apply C event = some family') :
    family'.parent.task.status.terminal = true ∧ ∃ child ∈ family'.children, child.unfolded = true := by
  unfold abandons at habandons
  split at habandons
  · next command =>
    simp only [Bool.and_eq_true, Bool.not_eq_true', List.any_eq_true] at habandons
    obtain ⟨⟨hunfolded, hactive⟩, hends⟩ := habandons
    simp only [apply] at happly
    split at happly
    · obtain ⟨_, parent, hcommand, rfl⟩ := onParent_eq_some.mp happly
      exact ⟨ends_terminal hactive hends hcommand, hunfolded⟩
    · cases happly
  · cases habandons

end Family

/-- A run of the family whose steps meet `allowed`. -/
abbrev FamilyRuns (C : Settings) (allowed : Family → FamilyEvent → Prop) : Family → List FamilyEvent → Family → Prop :=
  Steps (Guarded (Executes (Family.apply C)) allowed)

/-- What fan-in promises of every family that a run reaches. -/
structure FanInKept (C : Settings) (allowed : Family → FamilyEvent → Prop) : Prop where
  /-- A child is folded once. -/
  once : ∀ founded events family, Family.Founded founded → FamilyRuns C allowed founded events family →
    (family.context.map Contribution.child).Nodup
  /-- The parent is resumed when every live child has a terminal outcome. -/
  resumed : ∀ founded events family event family', Family.Founded founded → FamilyRuns C allowed founded events family →
    allowed family event → family.apply C event = some family' → family.parent.task.awaited = true →
    family'.parent.task.awaited = false → family'.parent.task.status.terminal = false →
    ∀ child ∈ family.children, child.live = true → child.record.task.hasTerminalOutcome = true
  /-- A parent with a terminal outcome is not reopened. -/
  final : ∀ founded events family event family', Family.Founded founded → FamilyRuns C allowed founded events family →
    allowed family event → family.apply C event = some family' → family.parent.task.hasTerminalOutcome = true →
    family'.parent.task.status = family.parent.task.status
  /-- The parent does not become terminal while a live child is to be folded. -/
  folded : ∀ founded events family event family', Family.Founded founded → FamilyRuns C allowed founded events family →
    allowed family event → family.apply C event = some family' → family.parent.task.status.terminal = false →
    family'.parent.task.status.terminal = true → ∀ child ∈ family'.children, child.unfolded = false
  /-- Once no live child is open, a fan-in resumes the parent that no user holds. -/
  resumes : ∀ founded events family, Family.Founded founded → FamilyRuns C allowed founded events family →
    allowed family .foldIn → family.parent.task.deleted = false → family.parent.task.isHeldByUser = false →
    (∀ child ∈ family.children, child.live = true → child.record.task.hasTerminalOutcome = true) →
    ∃ family', maybeFanIn C family = some family' ∧ family'.parent.task.awaited = false

/-- A Task whose run may ask for answers. -/
def asking : Family where
  parent := ⟨{status := .exec, lease := some ⟨7, 120⟩, attemptCount := 1},
    [{number := 1, phase := .dispatch, token := 7}]⟩
  children := []

/-- A peer that was asked and has not answered. -/
def asked : Child := {record := ⟨{status := .dispatch, pauseReasons := [.await]}, []⟩, awaits := true}

end Galaris.Tasks
