import Galaris.Agent.Planner

/-! What the planner leaves of the Tasks below a plan.

Materializing, activating and closing steps keep every Task where it is, with its costs and its attempts, and a
Task that succeeded keeps its status; what they add is new (`Keeps`, `Fresh`). So a pass of `advance` changes
costs at its own Task only. -/
namespace Galaris.Agent.Planner

open Rose (node Grows GrowAll All AllOf)

/-- The Task is the same one, with its costs and its attempts; one that succeeded stays so. -/
structure Keeps (a b : Task) : Prop where
  id : b.id = a.id
  cost : b.cost = a.cost
  own : b.own = a.own
  attempts : b.attempts = a.attempts
  accounted : b.plan.map (·.accountedChildCost) = a.plan.map (·.accountedChildCost)
  success : a.status = .success → b.status = .success
  exec : b.status = .exec → a.status = .exec ∧ b.attempt = a.attempt

/-- A Task that has just been materialized. -/
structure Fresh (a : Task) : Prop where
  cost : a.cost = 0
  own : a.own = 0
  attempts : a.attempts = 0
  accounted : ∀ plan, a.plan = some plan → plan.accountedChildCost = 0
  exec : a.status ≠ .exec

theorem Keeps.refl (a : Task) : Keeps a a := ⟨rfl, rfl, rfl, rfl, rfl, fun h => h, fun h => ⟨h, rfl⟩⟩

theorem Keeps.trans (a b c : Task) (h : Keeps a b) (k : Keeps b c) : Keeps a c where
  id := k.id.trans h.id
  cost := k.cost.trans h.cost
  own := k.own.trans h.own
  attempts := k.attempts.trans h.attempts
  accounted := k.accounted.trans h.accounted
  success := fun hsuccess => k.success (h.success hsuccess)
  exec := fun hexec => ⟨(h.exec (k.exec hexec).1).1, (k.exec hexec).2.trans (h.exec (k.exec hexec).1).2⟩

/-- A Task that goes on keeps its costs; its status may change, and its plan but for what is accounted. -/
theorem Keeps.of_running {a b : Task} (hid : b.id = a.id) (hcost : b.cost = a.cost)
    (hown : b.own = a.own) (hattempts : b.attempts = a.attempts)
    (haccounted : b.plan.map (·.accountedChildCost) = a.plan.map (·.accountedChildCost))
    (hrunning : a.status ≠ .success)
    (hidle : b.status ≠ .exec) : Keeps a b :=
  ⟨hid, hcost, hown, hattempts, haccounted, fun h => absurd h hrunning, fun h => absurd h hidle⟩

/-! ### Children -/

theorem childForStep_eq_some {children : List Tree} {step i : Nat} {child : Tree}
    (h : childForStep children step = some (i, child)) :
    children[i]? = some child ∧ child.value.planStep = step ∧ ∀ j < i, ∀ other,
    children[j]? = some other → other.value.planStep ≠ step := by
  rw [childForStep] at h
  split at h
  case h_1 j hfind =>
    obtain ⟨found, hget, heq⟩ := Option.map_eq_some_iff.mp h
    cases heq
    obtain ⟨hlt, hstep, hbefore⟩ := List.findIdx?_eq_some_iff_getElem.mp hfind
    rw [List.getElem?_eq_getElem hlt] at hget
    cases hget
    refine ⟨List.getElem?_eq_getElem hlt, by simpa using hstep, fun j hj other hother => ?_⟩
    obtain ⟨hlt', heq⟩ := List.getElem?_eq_some_iff.mp hother
    have := hbefore j hj
    rw [heq] at this
    simpa using this
  case h_2 => exact nomatch h

/-! ### Materializing -/

theorem child_fresh (step : Step) (id index depth : Nat) : Fresh (step.child id index depth) where
  cost := rfl
  own := rfl
  attempts := rfl
  accounted := by
    intro plan hplan
    have hplan : step.plan = some plan := hplan
    rw [Step.plan] at hplan
    split at hplan
    · cases hplan
      rfl
    · split at hplan
      · cases hplan
      · cases hplan
        rfl
  exec := by
    rw [Step.child]
    dsimp only
    split <;> decide

mutual

theorem materialize_fresh : ∀ (step : Step) (id index depth : Nat), (materialize step id index depth).All Fresh
  | ⟨closing, collection, item, steps⟩, id, index, depth => by
    rw [materialize]
    refine ⟨child_fresh _ id index depth, ?_⟩
    split
    · trivial
    · exact materializeAll_fresh steps 0 (depth + 1)

theorem materializeAll_fresh : ∀ (steps : List Step) (index depth : Nat), AllOf Fresh (materializeAll steps index depth)
  | [], _, _ => by
    rw [materializeAll]
    trivial
  | step :: rest, index, depth => by
    rw [materializeAll]
    exact ⟨materialize_fresh step index index depth, materializeAll_fresh rest (index + 1) depth⟩

end

theorem missing_fresh (children : List Tree) (steps : List Step) (depth : Nat) :
    AllOf Fresh (missing children steps depth) := by
  refine Rose.allOf_iff.mpr fun child hchild => ?_
  obtain ⟨entry, -, hentry⟩ := List.mem_filterMap.mp hchild
  split at hentry
  · exact nomatch hentry
  · exact Option.some.inj hentry ▸ materialize_fresh _ _ _ _

mutual

theorem ensure_grows : ∀ t : Tree, Grows Keeps Fresh t (ensure t)
  | node task children => by
    rw [ensure]
    cases task.plan with
    | none => exact Grows.refl Keeps.refl _
    | some plan =>
      exact ⟨Keeps.refl task,
        GrowAll.of_append (ensureEach_grows plan.steps.length [] children) (missing_fresh _ _ _)⟩

theorem ensureEach_grows : ∀ (count : Nat) (seen : List Nat) (children : List Tree),
    GrowAll Keeps Fresh children (ensureEach count seen children)
  | _, _, [] => by
    rw [ensureEach]
    trivial
  | count, seen, child :: rest => by
    rw [ensureEach]
    refine ⟨?_, ensureEach_grows count _ rest⟩
    split
    · exact ensure_grows child
    · exact Grows.refl Keeps.refl child

end

theorem ensureChildren_grows (task : Task) (children : List Tree) :
    GrowAll Keeps Fresh children (ensureChildren task children) := by
  have hgrows := ensure_grows (node task children)
  rw [ensureChildren]
  cases hensured : ensure (node task children)
  rw [hensured] at hgrows
  exact hgrows.2

/-! ### Activating -/

theorem Fresh.keeps (a b : Task) (h : Fresh a) (k : Keeps a b) : Fresh b where
  cost := k.cost.trans h.cost
  own := k.own.trans h.own
  attempts := k.attempts.trans h.attempts
  accounted := by
    intro plan hplan
    have hmap := k.accounted
    rw [hplan] at hmap
    obtain ⟨plan', hplan', heq⟩ := Option.map_eq_some_iff.mp hmap.symm
    exact heq.symm.trans (h.accounted plan' hplan')
  exec := fun hexec => h.exec (k.exec hexec).1

theorem begun_accounted (plan : Plan) : plan.begun.accountedChildCost = plan.accountedChildCost := by
  rw [Plan.begun]
  split <;> rfl

theorem activate_grows (fuel : Nat) (t : Tree) : Grows Keeps Fresh t (activate fuel t).1 := by
  induction fuel generalizing t with
  | zero => exact Grows.refl Keeps.refl t
  | succ fuel ih =>
    cases t with
    | node task children =>
      rw [activate]
      split
      case isTrue => exact Grows.refl Keeps.refl _
      case isFalse hgoes =>
        have hrunning : task.status ≠ .success := by
          intro hsuccess
          simp [hsuccess, Status.isTerminal] at hgoes
        split
        case h_1 plan hplan =>
          have hgroup : ∀ task' : Task, task'.id = task.id → task'.cost = task.cost →
              task'.own = task.own → task'.attempts = task.attempts →
              task'.plan = some plan.begun → task'.status ≠ .exec → Keeps task task' :=
                  fun task' hid hcost hown hattempts hplan' hidle =>
            .of_running hid hcost hown hattempts
              (by rw [hplan', hplan, Option.map_some, Option.map_some, begun_accounted]) hrunning
              hidle
          have hnested := ensureChildren_grows ({task with plan := some plan.begun}.markPlanWaiting) children
          dsimp only
          split
          case h_1 => exact ⟨hgroup _ rfl rfl rfl rfl rfl nofun, hnested⟩
          case h_2 i current hcurrent =>
            split
            case isTrue => exact ⟨hgroup _ rfl rfl rfl rfl rfl nofun, hnested⟩
            case isFalse =>
              refine ⟨hgroup _ rfl rfl rfl rfl rfl nofun, GrowAll.trans Keeps.trans Fresh.keeps hnested ?_⟩
              obtain ⟨hget, -⟩ := childForStep_eq_some hcurrent
              exact GrowAll.set Keeps.refl hget (ih current)
        case h_2 hplan =>
          split
          case isTrue => exact Grows.refl Keeps.refl _
          case isFalse => exact ⟨.of_running rfl rfl rfl rfl rfl hrunning nofun, GrowAll.refl Keeps.refl children⟩

/-! ### Closing and inserting -/

mutual

theorem close_grows : ∀ t : Tree, Grows Keeps Fresh t (close t)
  | node task children => by
    rw [close]
    split
    case isTrue => exact ⟨Keeps.refl task, closeAll_grows children⟩
    case isFalse hrunning =>
      refine ⟨.of_running rfl rfl rfl rfl rfl (fun hsuccess => ?_) nofun, closeAll_grows children⟩
      rw [hsuccess] at hrunning
      exact hrunning rfl

theorem closeAll_grows : ∀ children : List Tree, GrowAll Keeps Fresh children (closeAll children)
  | [] => by
    rw [closeAll]
    trivial
  | child :: rest => by
    rw [closeAll]
    exact ⟨close_grows child, closeAll_grows rest⟩

end

theorem shift_grows (cursor offset : Nat) (t : Tree) : Grows Keeps Fresh t (shift cursor offset t) := by
  cases t with
  | node task children =>
    rw [shift]
    split
    · exact ⟨⟨rfl, rfl, rfl, rfl, rfl, fun h => h, fun h => ⟨h, rfl⟩⟩, GrowAll.refl Keeps.refl children⟩
    · exact Grows.refl Keeps.refl _

theorem markRecovered_grows (t : Tree) : Grows Keeps Fresh t (markRecovered t) := by
  cases t with
  | node task children =>
    exact ⟨⟨rfl, rfl, rfl, rfl, rfl, fun h => h, fun h => ⟨h, rfl⟩⟩,
      GrowAll.refl Keeps.refl children⟩

theorem modify_grows {f : Tree → Tree} (hf : ∀ t, Grows Keeps Fresh t (f t)) (children : List Tree) (i : Nat) :
    GrowAll Keeps Fresh children (children.modify i f) := by
  cases hget : children[i]? with
  | none =>
    rw [List.modify_eq_self (List.getElem?_eq_none_iff.mp hget)]
    exact GrowAll.refl Keeps.refl children
  | some child =>
    have hset : children.modify i f = children.set i (f child) := by
      rw [List.modify_eq_set_getElem?, hget]
      rfl
    rw [hset]
    exact GrowAll.set Keeps.refl hget (hf child)

/-! ### Passes -/

/-- A pass that goes on: the Task is the same one, with its costs, and the children have grown. -/
structure Stays (task : Task) (accounted : ℚ) (children : List Tree) (t : Tree) : Prop where
  id : t.value.id = task.id
  planStep : t.value.planStep = task.planStep
  status : t.value.status = .plan
  cost : t.value.cost = task.cost
  own : t.value.own = task.own
  attempts : t.value.attempts = task.attempts
  accounted : t.value.plan.map (·.accountedChildCost) = some accounted
  children : GrowAll Keeps Fresh children t.children

/-- What a pass may be charged for its own Task. -/
def Reply.charges (reply : Reply) (cost : ℚ) : Prop :=
    cost = 0 ∨ ∃ recovery, reply.recovery = some recovery ∧ cost = recovery.cost

/-- The Task before and after the pass has been charged. -/
structure Charged (task : Task) (charge : ℚ) (task' : Task) : Prop where
  id : task'.id = task.id
  planStep : task'.planStep = task.planStep
  status : task'.status = task.status
  cost : task'.cost = task.cost + charge
  own : task'.own = task.own + charge
  attempts : task'.attempts = task.attempts

theorem Charged.none (task : Task) : Charged task 0 task := ⟨rfl, rfl, rfl, (add_zero _).symm, (add_zero _).symm, rfl⟩

/-- How a pass of a plan ends. -/
inductive Passed (reply : Reply) (task : Task) (accounted : ℚ) (children : List Tree) : Outcome → Prop
  | waits {cost task' t} : reply.charges cost → Charged task cost task' →
    Stays task' accounted children t → Passed reply task accounted children (.waiting t)
  | raises {cost task' t} : reply.charges cost → Charged task cost task' →
    Stays task' accounted children t → Passed reply task accounted children (.raised t)
  | ends {cost task' plan children' success} :
    reply.charges cost → Charged task cost task' → plan.accountedChildCost = accounted →
      GrowAll Keeps Fresh children children' → Passed reply task accounted children
      (.finalized (finalize reply task' plan children' success))

section Passes
variable {reply : Reply} {task task' : Task} {plan : Plan} {charge accounted : ℚ}
    {children children' : List Tree} (hplanning : task.status = .plan)
  (hcharges : reply.charges charge) (hcharged : Charged task charge task')
    (hchildren : GrowAll Keeps Fresh children children')

include hplanning hcharges hcharged hchildren

theorem activateStep_passed (hplan : task'.plan.map (·.accountedChildCost) = some accounted) (step : Nat) :
    Passed reply task accounted children (activateStep task' children' step) := by
  rw [activateStep]
  split
  case h_1 =>
    exact .raises hcharges hcharged
      ⟨rfl, rfl, hcharged.status.trans hplanning, rfl, rfl, rfl, hplan, hchildren⟩
  case h_2 i child hchild =>
    obtain ⟨hget, -⟩ := childForStep_eq_some hchild
    have hset : GrowAll Keeps Fresh children (children'.set i (activate (child.height + 1) child).1) :=
      GrowAll.trans Keeps.trans Fresh.keeps hchildren (GrowAll.set Keeps.refl hget (activate_grows _ child))
    dsimp only
    split
    case isTrue =>
      exact .raises hcharges hcharged
        ⟨rfl, rfl, hcharged.status.trans hplanning, rfl, rfl, rfl, hplan, hset⟩
    case isFalse => exact .waits hcharges hcharged ⟨rfl, rfl, rfl, rfl, rfl, rfl, hplan, hset⟩

theorem enter_passed (hplan : plan.accountedChildCost = accounted) (step : Nat) :
    Passed reply task accounted children (enter task' plan children' step) := by
  have hcharged' : Charged task charge {task' with plan := some plan} := ⟨hcharged.id,
      hcharged.planStep, hcharged.status, hcharged.cost, hcharged.own, hcharged.attempts⟩
  exact activateStep_passed hplanning hcharges hcharged' (GrowAll.trans Keeps.trans Fresh.keeps
    hchildren (ensureChildren_grows _ _)) (congrArg some hplan) step

theorem continueAfterFailure_passed (hplan : plan.accountedChildCost = accounted) (failed : Tree) :
    Passed reply task accounted children (continueAfterFailure reply task' plan children' failed) := by
  rw [continueAfterFailure]
  dsimp only
  have hclosed : GrowAll Keeps Fresh children (children'.map fun child =>
      if ((plan.steps.zipIdx.filter fun entry => entry.1.runAfterFailure &&
        plan.cursor < entry.2).map (·.2)).contains child.value.planStep then child
      else close child) := by
    refine GrowAll.trans Keeps.trans Fresh.keeps hchildren (GrowAll.map (fun child => ?_) children')
    split
    · exact Grows.refl Keeps.refl child
    · exact close_grows child
  split
  case h_1 => exact .ends hcharges hcharged hplan hclosed
  case h_2 step rest _ =>
    exact enter_passed hplanning hcharges hcharged hclosed
      (show Plan.accountedChildCost
        {plan with failureTaskId := plan.failureTaskId.or (some failed.value.id), cursor := step} =
        accounted from hplan) step

theorem goOn_passed (hplan : plan.accountedChildCost = accounted) :
    Passed reply task accounted children (goOn reply task' plan children') := by
  rw [goOn]
  dsimp only
  split
  case isTrue =>
    split
    case h_1 =>
      exact .raises hcharges hcharged
        ⟨rfl, rfl, hcharged.status.trans hplanning, rfl, rfl, rfl, congrArg some hplan, hchildren⟩
    case h_2 wave hwave =>
      have hplan' : wave.accountedChildCost = accounted := by
        obtain ⟨count, -, rfl⟩ := Option.map_eq_some_iff.mp hwave
        exact hplan
      split
      case isTrue => exact enter_passed hplanning hcharges hcharged hchildren hplan' wave.cursor
      case isFalse => exact .ends hcharges hcharged hplan' hchildren
  case isFalse =>
    split
    case isTrue =>
      exact enter_passed hplanning hcharges hcharged hchildren (show Plan.accountedChildCost
        {plan with cursor := plan.cursor + 1} = accounted from hplan) _
    case isFalse => exact .ends hcharges hcharged hplan hchildren

theorem atEnd_passed (hplan : plan.accountedChildCost = accounted) :
    Passed reply task accounted children (atEnd reply task' plan children') := by
  rw [atEnd]
  split
  case isTrue =>
    split
    case h_1 =>
      exact .raises hcharges hcharged
        ⟨rfl, rfl, hcharged.status.trans hplanning, rfl, rfl, rfl, congrArg some hplan, hchildren⟩
    case h_2 wave hwave =>
      have hplan' : wave.accountedChildCost = accounted := by
        obtain ⟨count, -, rfl⟩ := Option.map_eq_some_iff.mp hwave
        exact hplan
      split
      case isTrue => exact enter_passed hplanning hcharges hcharged hchildren hplan' plan.cursor
      case isFalse => exact .ends hcharges hcharged hplan' hchildren
  case isFalse => exact .ends hcharges hcharged hplan hchildren

end Passes

/-- What the attempt to recover is charged, and what it inserts. -/
theorem tryRecoverBlockedPlan_spec (reply : Reply) (task : Task) (plan : Plan) (children : List Tree) (blocked : Nat) :
    ∃ charge, reply.charges charge ∧ match tryRecoverBlockedPlan reply task plan children blocked with
      | .none task' => Charged task charge task'
      | .raised task' => Charged task charge task'
      | .inserted task' plan' children' =>
        Charged task charge task' ∧ plan'.accountedChildCost = plan.accountedChildCost ∧
            GrowAll Keeps Fresh children children' := by
  rw [tryRecoverBlockedPlan]
  by_cases hattempted : task.blockedRecovery = true
  case pos =>
    rw [if_pos hattempted]
    exact ⟨0, .inl rfl, .none task⟩
  case neg =>
    rw [if_neg hattempted]
    dsimp only
    cases hrecovery : reply.recovery with
    | none => exact ⟨0, .inl rfl, rfl, rfl, rfl, (add_zero _).symm, (add_zero _).symm, rfl⟩
    | some recovery =>
      refine ⟨recovery.cost, .inr ⟨recovery, hrecovery, rfl⟩, ?_⟩
      have hcharged :
          Charged task recovery.cost ({task with blockedRecovery := true}.charge recovery.cost) :=
          ⟨rfl, rfl, rfl, rfl, rfl, rfl⟩
      dsimp only
      cases recovery.steps with
      | none => exact hcharged
      | some inserted =>
        dsimp only
        by_cases hrefused : recovery.refused = true
        · rw [if_pos hrefused]
          exact hcharged
        · rw [if_neg hrefused]
          by_cases hdeep : recovery.tooDeep = true
          · rw [if_pos hdeep]
            exact hcharged
          · rw [if_neg hdeep]
            by_cases htrailing : (!trailing (if plan.collection then inserted
              else plan.steps.take (plan.cursor + 1) ++ inserted ++ plan.steps.drop (plan.cursor + 1))) = true
            · rw [if_pos htrailing]
              exact hcharged
            · rw [if_neg htrailing]
              refine ⟨hcharged, rfl, GrowAll.trans Keeps.trans Fresh.keeps
                (GrowAll.map (shift_grows plan.cursor inserted.length) children) ?_⟩
              exact modify_grows markRecovered_grows _ blocked

section Pass
variable {reply : Reply} {task : Task} {plan : Plan} {children : List Tree} (hplanning : task.status = .plan)

include hplanning

theorem afterBlocked_passed (position : Nat) (current : Tree) :
    Passed reply task plan.accountedChildCost children (afterBlocked reply task plan children position current) := by
  have hsame : GrowAll Keeps Fresh children children := GrowAll.refl Keeps.refl children
  rw [afterBlocked]
  split
  case isTrue =>
    obtain ⟨charge, hcharges, hspec⟩ := tryRecoverBlockedPlan_spec reply task plan children position
    split
    case h_1 task' plan' children' heq =>
      rw [heq] at hspec
      exact enter_passed hplanning hcharges hspec.1 hspec.2.2 hspec.2.1 plan'.cursor
    case h_2 task' heq =>
      rw [heq] at hspec
      exact continueAfterFailure_passed hplanning hcharges hspec hsame rfl current
    case h_3 task' heq =>
      rw [heq] at hspec
      exact .raises hcharges hspec ⟨rfl, rfl, hspec.status.trans hplanning, rfl, rfl, rfl, rfl, hsame⟩
  case isFalse => exact continueAfterFailure_passed hplanning (.inl rfl) (.none task) hsame rfl current

theorem advancePlan_passed :
    Passed reply task plan.accountedChildCost children (advancePlan reply task plan children) := by
  have hsame : GrowAll Keeps Fresh children children := GrowAll.refl Keeps.refl children
  have hplanned : Charged task 0 {task with plan := some plan} :=
      ⟨rfl, rfl, rfl, (add_zero _).symm, (add_zero _).symm, rfl⟩
  have hwaits : Passed reply task plan.accountedChildCost children
      (.waiting (node {task with plan := some plan}.markPlanWaiting children)) :=
    .waits (.inl rfl) hplanned ⟨rfl, rfl, rfl, rfl, rfl, rfl, rfl, hsame⟩
  rw [advancePlan]
  split
  case isTrue => exact atEnd_passed hplanning (.inl rfl) (.none task) hsame rfl
  case isFalse =>
    split
    case h_1 => exact enter_passed hplanning (.inl rfl) (.none task) hsame rfl plan.cursor
    case h_2 position current hcurrent =>
      split
      case h_1 =>
        split
        case isTrue => exact hwaits
        case isFalse =>
          refine continueAfterFailure_passed hplanning (.inl rfl) ?_ hsame rfl current
          split
          case isTrue => exact ⟨rfl, rfl, rfl, (add_zero _).symm, (add_zero _).symm, rfl⟩
          case isFalse => exact .none task
      case h_2 =>
        split
        case isTrue => exact afterBlocked_passed hplanning position current
        case isFalse =>
          split
          case isTrue =>
            split
            case h_1 => exact .raises (.inl rfl) (.none task) ⟨rfl, rfl, hplanning, rfl, rfl, rfl, rfl, hsame⟩
            case h_2 => exact goOn_passed hplanning (.inl rfl) (.none task) hsame rfl
          case isFalse => exact goOn_passed hplanning (.inl rfl) (.none task) hsame rfl
      case h_3 =>
        split
        case isTrue => exact activateStep_passed hplanning (.inl rfl) hplanned hsame rfl plan.cursor
        case isFalse => exact hwaits

end Pass

end Galaris.Agent.Planner
