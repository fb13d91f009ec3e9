import Galaris.Agent.PlanTree
import Galaris.Base.Transition
import Mathlib.Tactic.Linarith
import Mathlib.Tactic.NormNum
import Mathlib.Tactic.Ring

/-! What a plan costs.

A plan keeps what of its children's costs it has accounted for (`accountedChildCost`), and `_finalize` adds what
came since. `Balanced` says that each planned Task costs what it was charged itself and what it has accounted
for, which is no more than its children cost; every event keeps it, whatever is retried, so that after
`_finalize` the children are counted once each (`finalize_counts_once`). -/
namespace Galaris.Agent.Planner

open Rose (node Grows GrowAll All AllOf Under)
open Transition

/-- The Task has the costs it had, and what it has accounted for. -/
structure SameCosts (a b : Task) : Prop where
  cost : b.cost = a.cost
  own : b.own = a.own
  accounted : b.plan.map (·.accountedChildCost) = a.plan.map (·.accountedChildCost)
  exec : b.status = .exec → a.status = .exec ∧ b.attempt = a.attempt

theorem Keeps.sameCosts (a b : Task) (h : Keeps a b) : SameCosts a b := ⟨h.cost, h.own, h.accounted, h.exec⟩

/-- A planned Task costs what it was charged itself and what it accounted for; a running attempt began with
what its Task costs. -/
structure Accounts (task : Task) (children : List Tree) : Prop where
  nonneg : 0 ≤ task.cost
  planned : ∀ plan, task.plan = some plan → task.cost = task.own + plan.accountedChildCost ∧
    plan.accountedChildCost ≤ childCosts children
  attempt : task.status = .exec → task.plan = none ∧ ∀ base, task.attempt = some base → base = task.cost

mutual

def Balanced : Tree → Prop
  | node task children => Accounts task children ∧ BalancedAll children

def BalancedAll : List Tree → Prop
  | [] => True
  | child :: rest => Balanced child ∧ BalancedAll rest

end

theorem balancedAll_iff {children : List Tree} : BalancedAll children ↔ ∀ child ∈ children, Balanced child := by
  induction children with
  | nil => exact ⟨fun _ _ hmem => absurd hmem List.not_mem_nil, fun _ => trivial⟩
  | cons child rest ih => rw [BalancedAll, ih, List.forall_mem_cons]

theorem Balanced.value {t : Tree} (h : Balanced t) : Accounts t.value t.children := by
  cases t
  exact h.1

theorem Balanced.children {t : Tree} (h : Balanced t) : BalancedAll t.children := by
  cases t
  exact h.2

theorem childCosts_nonneg {children : List Tree} (h : BalancedAll children) : 0 ≤ childCosts children := by
  refine List.sum_nonneg fun cost hcost => ?_
  obtain ⟨child, hchild, rfl⟩ := List.mem_map.mp hcost
  exact (balancedAll_iff.mp h child hchild).value.nonneg

theorem childCosts_grow {children children' : List Tree} (h : GrowAll SameCosts Fresh children children') :
    childCosts children' = childCosts children :=
  GrowAll.sum_eq (fun _ _ h => h.cost) (fun _ h => h.cost) h

mutual

/-- What is new costs nothing. -/
theorem fresh_balanced : ∀ {t : Tree}, t.All Fresh → Balanced t
  | node task children, ⟨htask, hchildren⟩ => by
    have hall := fresh_balancedAll hchildren
    refine ⟨⟨htask.cost.ge, fun plan hplan => ?_, fun hexec => absurd hexec htask.exec⟩, hall⟩
    rw [htask.cost, htask.own, htask.accounted plan hplan]
    exact ⟨(add_zero _).symm, childCosts_nonneg hall⟩

theorem fresh_balancedAll : ∀ {children : List Tree}, AllOf Fresh children → BalancedAll children
  | [], _ => trivial
  | _ :: _, ⟨hchild, hrest⟩ => ⟨fresh_balanced hchild, fresh_balancedAll hrest⟩

end

theorem Accounts.same {a b : Task} {children children' : List Tree} (h : Accounts a children) (hsame : SameCosts a b)
    (hchildren : GrowAll SameCosts Fresh children children') : Accounts b children' where
  nonneg := hsame.cost ▸ h.nonneg
  planned := by
    intro plan hplan
    have hmap := hsame.accounted
    rw [hplan] at hmap
    obtain ⟨plan', hplan', heq⟩ := Option.map_eq_some_iff.mp hmap.symm
    have heq : plan'.accountedChildCost = plan.accountedChildCost := heq
    obtain ⟨hcost, hle⟩ := h.planned plan' hplan'
    rw [hsame.cost, hsame.own, ← heq, childCosts_grow hchildren]
    exact ⟨hcost, hle⟩
  attempt := by
    intro hexec
    obtain ⟨hexec', hattempt⟩ := hsame.exec hexec
    obtain ⟨hleaf, hbase⟩ := h.attempt hexec'
    have hmap := hsame.accounted
    rw [hleaf] at hmap
    rw [hsame.cost, hattempt]
    exact ⟨Option.map_eq_none_iff.mp hmap, hbase⟩

mutual

/-- What keeps the costs keeps them balanced. -/
theorem Balanced.grows : ∀ {t u : Tree}, Balanced t → Grows SameCosts Fresh t u → Balanced u
  | node _ _, node _ _, ⟨hroot, hall⟩, ⟨hsame, hgrow⟩ => ⟨hroot.same hsame hgrow, BalancedAll.grows hall hgrow⟩

theorem BalancedAll.grows : ∀ {children children' : List Tree}, BalancedAll children →
    GrowAll SameCosts Fresh children children' → BalancedAll children'
  | [], _, _, hgrow => fresh_balancedAll hgrow
  | _ :: _, [], _, hgrow => absurd hgrow id
  | _ :: _, _ :: _, ⟨hchild, hrest⟩, ⟨hgrow, hgrowAll⟩ =>
    ⟨Balanced.grows hchild hgrow, BalancedAll.grows hrest hgrowAll⟩

end

/-! ### Passes -/

/-- No call of a model has a negative cost. -/
structure Reply.Nonneg (reply : Reply) : Prop where
  building : (∀ cost, reply.building = .clarify cost → 0 ≤ cost) ∧ ∀ cost steps refused,
    reply.building = .built cost steps refused → 0 ≤ cost
  recovery : ∀ recovery, reply.recovery = some recovery → 0 ≤ recovery.cost
  synthesis : 0 ≤ reply.synthesis.getD 0

theorem Reply.Nonneg.charges {reply : Reply} (h : reply.Nonneg) {charge : ℚ}
    (hcharges : reply.charges charge) : 0 ≤ charge := by
  obtain rfl | ⟨recovery, hrecovery, rfl⟩ := hcharges
  · exact le_refl 0
  · exact h.recovery recovery hrecovery

section Passes
variable {reply : Reply} {task task' : Task} {plan : Plan} {charge : ℚ} {children children' : List Tree}

/-- `_finalize` counts what the children cost, once. -/
theorem finalize_cost (reply : Reply) (hcost : task.cost = task.own + plan.accountedChildCost)
    (hle : plan.accountedChildCost ≤ childCosts children) (success : Bool) :
    (finalize reply task plan children success).value.cost =
    (finalize reply task plan children success).value.own + childCosts children := by
  rw [finalize]
  dsimp only [Rose.value_node]
  rw [hcost, max_eq_right (sub_nonneg.mpr hle)]
  ring

theorem finalize_balanced (hnonneg : reply.Nonneg) (hpos : 0 ≤ task.cost)
    (hcost : task.cost = task.own + plan.accountedChildCost)
    (hle : plan.accountedChildCost ≤ childCosts children) (hall : BalancedAll children) (success : Bool) :
    Balanced (finalize reply task plan children success) ∧
        task.cost ≤ (finalize reply task plan children success).value.cost := by
  have hcounted := finalize_cost reply hcost hle success
  have hgrown : task.cost ≤ (finalize reply task plan children success).value.cost := by
    rw [finalize]
    dsimp only [Rose.value_node]
    have hmax : (0 : ℚ) ≤ max 0 (childCosts children - plan.accountedChildCost) := le_max_left _ _
    split
    · linarith [hnonneg.synthesis]
    · linarith
  refine ⟨⟨⟨hpos.trans hgrown, fun plan' hplan' => ?_, fun hexec => ?_⟩, hall⟩, hgrown⟩
  · cases hplan'
    exact ⟨hcounted, le_refl _⟩
  · have hended : (if (success && !(success && task.planDepth == 0 && reply.completionError)) = true
        then Status.success else Status.error) ≠ .exec := by
      split <;> decide
    exact absurd hexec hended

/-- A pass that goes on keeps the Task balanced with what it was charged. -/
theorem Stays.balanced {accounted : ℚ} (hpos : 0 ≤ task.cost)
    (hcost : task.cost = task.own + accounted) (hle : accounted ≤ childCosts children)
    (hall : BalancedAll children) (hcharge : 0 ≤ charge) (hcharged : Charged task charge task') {t : Tree}
    (hstays : Stays task' accounted children t) : Balanced t ∧ task.cost ≤ t.value.cost := by
  have hgrow : GrowAll SameCosts Fresh children t.children := GrowAll.mono Keeps.sameCosts hstays.children
  have hgrown : task.cost ≤ t.value.cost := by
    rw [hstays.cost, hcharged.cost]
    linarith
  refine ⟨?_, hgrown⟩
  cases t with
  | node task'' children'' =>
    refine ⟨⟨hpos.trans hgrown, fun plan' hplan' => ?_,
      fun hexec => nomatch hexec.symm.trans hstays.status⟩, hall.grows hgrow⟩
    have haccounted : plan'.accountedChildCost = accounted := by
      have hmap := hstays.accounted
      rw [Rose.value_node, hplan'] at hmap
      exact Option.some.inj hmap
    rw [haccounted]
    have hcost' : task''.cost = task'.cost := hstays.cost
    have hown' : task''.own = task'.own := hstays.own
    rw [hcost', hown', hcharged.cost, hcharged.own, hcost]
    exact ⟨by ring, childCosts_grow hgrow ▸ hle⟩

/-- A Task that failed has the costs it had. -/
theorem fail_balanced {t : Tree} (h : Balanced t) : Balanced (fail t) ∧ t.value.cost ≤ (fail t).value.cost := by
  cases t with
  | node task children => exact ⟨⟨⟨h.1.nonneg, h.1.planned, nofun⟩, h.2⟩, le_refl _⟩

/-- However a pass ends, the Task is balanced with what it was charged. -/
theorem Passed.balanced {accounted : ℚ} {outcome : Outcome}
    (hpassed : Passed reply task accounted children outcome) (hnonneg : reply.Nonneg)
    (hpos : 0 ≤ task.cost) (hcost : task.cost = task.own + accounted)
    (hle : accounted ≤ childCosts children) (hall : BalancedAll children) :
    Balanced outcome.tree ∧ task.cost ≤ outcome.tree.value.cost := by
  cases hpassed with
  | waits hcharges hcharged hstays => exact hstays.balanced hpos hcost hle hall (hnonneg.charges hcharges) hcharged
  | raises hcharges hcharged hstays => exact hstays.balanced hpos hcost hle hall (hnonneg.charges hcharges) hcharged
  | @ends charge task' plan' children' success hcharges hcharged haccounted hgrow =>
    have hcharge := hnonneg.charges hcharges
    have hgrow' : GrowAll SameCosts Fresh children children' := GrowAll.mono Keeps.sameCosts hgrow
    have hgrown : task.cost ≤ task'.cost := by
      rw [hcharged.cost]
      linarith
    have hcost' : task'.cost = task'.own + plan'.accountedChildCost := by
      rw [hcharged.cost, hcharged.own, haccounted, hcost]
      ring
    have hle' : plan'.accountedChildCost ≤ childCosts children' := by
      rw [haccounted, childCosts_grow hgrow']
      exact hle
    obtain ⟨hbalanced, hfinal⟩ := finalize_balanced hnonneg (hpos.trans hgrown) hcost' hle' (hall.grows hgrow') success
    exact ⟨hbalanced, hgrown.trans hfinal⟩

/-- A Task gets its plan: what it was charged until then is its own. -/
theorem startPlan_balanced (hnonneg : reply.Nonneg) (hplanning : task.status = .plan)
    (hnone : task.plan = none) (hpos : 0 ≤ task.cost)
    (hall : BalancedAll children) :
    Balanced (startPlan reply task children).tree ∧ task.cost ≤ (startPlan reply task children).tree.value.cost := by
  rw [startPlan]
  split
  case h_1 => exact ⟨⟨⟨hpos, fun plan hplan => (nomatch hnone.symm.trans hplan), nofun⟩, hall⟩, le_refl _⟩
  case h_2 cost hbuilding =>
    have hgrown : task.cost ≤ task.cost + cost := le_add_of_nonneg_right (hnonneg.building.1 cost hbuilding)
    exact ⟨⟨⟨hpos.trans hgrown, fun plan hplan => (nomatch hnone.symm.trans hplan),
      fun hexec => (nomatch hexec.symm.trans hplanning)⟩, hall⟩, hgrown⟩
  case h_3 cost steps refused hbuilding =>
    have hgrown : task.cost ≤ task.cost + cost :=
        le_add_of_nonneg_right (hnonneg.building.2 cost steps refused hbuilding)
    dsimp only
    split
    case isTrue =>
      exact ⟨⟨⟨hpos.trans hgrown, fun plan hplan => (nomatch hnone.symm.trans hplan),
        fun hexec => (nomatch hexec.symm.trans hplanning)⟩, hall⟩, hgrown⟩
    case isFalse =>
      have hcharged : {task with cost := task.cost + cost, own := task.cost + cost}.status = .plan := hplanning
      have hpassed := enter_passed hcharged (show reply.charges 0 from .inl rfl) (Charged.none _) (GrowAll.refl Keeps.refl children)
        (show Plan.accountedChildCost {steps := if steps.isEmpty then [{}] else steps} = 0 from rfl) 0
      obtain ⟨hbalanced, hle⟩ := hpassed.balanced hnonneg (hpos.trans hgrown) (add_zero _).symm (childCosts_nonneg hall) hall
      exact ⟨hbalanced, hgrown.trans hle⟩

/-- An error of the planner fails the Task that has been charged so far. -/
theorem caught_balanced {cost : ℚ} {outcome : Outcome} (h : Balanced outcome.tree ∧ cost ≤ outcome.tree.value.cost) :
    Balanced (match outcome with | .raised tree => Outcome.raised (fail tree) | outcome => outcome).tree ∧
      cost ≤ (match outcome with | .raised tree => Outcome.raised (fail tree) | outcome => outcome).tree.value.cost := by
  cases outcome with
  | raised t =>
    obtain ⟨hbalanced, hle⟩ := fail_balanced h.1
    exact ⟨hbalanced, h.2.trans hle⟩
  | waiting t => exact h
  | finalized t => exact h

theorem advance_balanced {t : Tree} (hnonneg : reply.Nonneg) (h : Balanced t) :
    Balanced (advance reply t).tree ∧ t.value.cost ≤ (advance reply t).tree.value.cost := by
  cases t with
  | node task children =>
    rw [advance]
    split
    case isTrue => exact ⟨h, le_refl _⟩
    case isFalse hgoes =>
      have hplanning : task.status = .plan := by
        by_contra hother
        exact hgoes (by simp [hother])
      refine caught_balanced ?_
      cases hplan : task.plan with
      | none => exact startPlan_balanced hnonneg hplanning hplan h.1.nonneg h.2
      | some plan =>
        obtain ⟨hcost, hle⟩ := h.1.planned plan hplan
        rw [← begun_accounted plan] at hcost hle
        exact (advancePlan_passed hplanning).balanced hnonneg h.1.nonneg hcost hle h.2

end Passes

/-! ### Retries -/

theorem restart_sameCosts (closing : Bool) (task task' : Task) (h : SameCosts task task') : SameCosts task (restart closing task') := by
  rw [restart]
  split
  case isTrue => exact h
  case isFalse =>
    refine ⟨h.cost, h.own, h.accounted, fun hexec => absurd hexec ?_⟩
    dsimp only
    split
    · decide
    · split <;> decide

mutual

theorem reopen_grows (closing : Bool) : ∀ t : Tree, Grows SameCosts Fresh t (reopen closing t)
  | node task children => by
    rw [reopen]
    split
    case h_1 =>
      exact ⟨restart_sameCosts closing task task (Keeps.sameCosts _ _ (Keeps.refl task)), reopenAll_grows none children⟩
    case h_2 plan hplan =>
      have hsame : SameCosts task {task with plan := some (plan.reopened children)} :=
        ⟨rfl, rfl, by rw [hplan]; rfl, fun hexec => ⟨hexec, rfl⟩⟩
      exact ⟨restart_sameCosts closing task _ hsame, reopenAll_grows (some plan) children⟩

theorem reopenAll_grows (plan : Option Plan) : ∀ children : List Tree, GrowAll SameCosts Fresh children (reopenAll plan children)
  | [] => by
    rw [reopenAll]
    trivial
  | child :: rest => by
    rw [reopenAll]
    exact ⟨reopen_grows _ child, reopenAll_grows plan rest⟩

end

theorem SameCosts.refl (a : Task) : SameCosts a a := Keeps.sameCosts a a (Keeps.refl a)

theorem retry_grows {t u : Tree} (h : retry t = .ok u) : Grows SameCosts Fresh t u := by
  cases t with
  | node task children =>
    have hsame : GrowAll SameCosts Fresh children children := GrowAll.refl SameCosts.refl children
    rw [retry] at h
    split at h
    case h_1 recovery _ =>
      split at h
      case h_1 => exact nomatch h
      case h_2 i _ =>
        split at h
        case h_1 child nested hget =>
          split at h
          case isTrue => exact nomatch h
          case isFalse =>
            split at h
            case isTrue => exact nomatch h
            case isFalse =>
              cases h
              exact ⟨⟨rfl, rfl, rfl, nofun⟩, GrowAll.set SameCosts.refl hget
                ⟨⟨rfl, rfl, rfl, nofun⟩, GrowAll.refl SameCosts.refl nested⟩⟩
        case h_2 => exact nomatch h
    case h_2 =>
      split at h
      case isTrue => exact nomatch h
      case isFalse =>
        split at h
        case isTrue =>
          cases h
          exact ⟨⟨rfl, rfl, rfl, nofun⟩, hsame⟩
        case isFalse =>
          split at h
          case h_1 =>
            split at h
            case isTrue => exact nomatch h
            case isFalse =>
              have hgrows := reopen_grows false (node task children)
              split at h
              case h_1 task' children' hreopen =>
                cases h
                rw [hreopen] at hgrows
                exact ⟨⟨hgrows.1.cost, hgrows.1.own, hgrows.1.accounted, hgrows.1.exec⟩, hgrows.2⟩
          case h_2 =>
            cases h
            exact ⟨⟨rfl, rfl, rfl, nofun⟩, hsame⟩

/-! ### Runs -/

/-- What an event costs is not negative. -/
def Event.Nonneg : Event → Prop
  | .dispatch cost _ => 0 ≤ cost
  | .advance reply => reply.Nonneg
  | .finish _ cost => 0 ≤ cost
  | _ => True

/-- A Task whose costs and accounts did not change keeps them where it does not begin an attempt. -/
theorem Accounts.idle {a b : Task} {children : List Tree} (h : Accounts a children) (hcost : b.cost = a.cost) (hown : b.own = a.own)
    (hplan : b.plan = a.plan) (hidle : b.status ≠ .exec) : Accounts b children :=
  h.same ⟨hcost, hown, by rw [hplan], fun hexec => absurd hexec hidle⟩ (GrowAll.refl SameCosts.refl children)

theorem apply_balanced {t u : Tree} {event : Event} (hnonneg : event.Nonneg) (h : Balanced t) (happly : apply event t = some u) :
    Balanced u ∧ t.value.cost ≤ u.value.cost := by
  cases t with
  | node task children =>
    unfold apply at happly
    cases event with
    | dispatch cost planned =>
      obtain ⟨-, heq⟩ := Option.ite_none_right_eq_some.mp happly
      cases heq
      have hgrown : task.cost ≤ task.cost + cost := le_add_of_nonneg_right hnonneg
      refine ⟨⟨⟨h.1.nonneg.trans hgrown, fun plan hplan => ?_, fun hexec => ?_⟩, h.2⟩, hgrown⟩
      · obtain ⟨hcost, hle⟩ := h.1.planned plan hplan
        refine ⟨?_, hle⟩
        rw [Task.charge]
        dsimp only
        rw [hcost]
        ring
      · have hidle : (if planned = true then Status.plan else Status.dispatch) ≠ .exec := by split <;> decide
        exact absurd hexec hidle
    | advance reply =>
      cases happly
      exact advance_balanced hnonneg h
    | begin =>
      obtain ⟨hready, heq⟩ := Option.ite_none_right_eq_some.mp happly
      cases heq
      have hleaf : task.plan = none := by
        rw [Bool.and_eq_true, Bool.and_eq_true] at hready
        exact Option.isNone_iff_eq_none.mp hready.1.1
      refine ⟨⟨⟨h.1.nonneg, h.1.planned, fun _ => ⟨hleaf, fun base hbase => ?_⟩⟩, h.2⟩, le_refl _⟩
      cases hbase
      rfl
    | finish ending cost =>
      obtain ⟨hexec, heq⟩ := Option.ite_none_right_eq_some.mp happly
      obtain ⟨base, hbase, heq⟩ := Option.map_eq_some_iff.mp heq
      cases heq
      -- The attempt began with what its Task costs, which has no plan.
      obtain ⟨hleaf, hbases⟩ := h.1.attempt (beq_iff_eq.mp hexec)
      have hgrown : task.cost ≤ base + cost := (hbases base hbase).symm ▸ le_add_of_nonneg_right hnonneg
      have hupdated : Accounts (updateAfterExecution task ending base cost) children ∧
          (updateAfterExecution task ending base cost).cost = base + cost := by
        cases ending <;>
          exact ⟨⟨h.1.nonneg.trans hgrown, fun plan hplan => (nomatch hleaf.symm.trans hplan), nofun⟩, rfl⟩
      exact ⟨⟨hupdated.1, h.2⟩, hgrown.trans hupdated.2.ge⟩
    | settle again =>
      obtain ⟨-, heq⟩ := Option.ite_none_right_eq_some.mp happly
      cases heq
      refine ⟨⟨h.1.idle rfl rfl rfl ?_, h.2⟩, le_refl _⟩
      dsimp only
      split <;> decide
    | interrupt =>
      obtain ⟨-, heq⟩ := Option.ite_none_right_eq_some.mp happly
      cases heq
      exact ⟨⟨h.1.idle rfl rfl rfl nofun, h.2⟩, le_refl _⟩
    | suspend reason =>
      cases happly
      exact ⟨⟨⟨h.1.nonneg, h.1.planned, h.1.attempt⟩, h.2⟩, le_refl _⟩
    | release reason =>
      cases happly
      exact ⟨⟨⟨h.1.nonneg, h.1.planned, h.1.attempt⟩, h.2⟩, le_refl _⟩
    | retry =>
      have hretry : retry (node task children) = .ok u := by
        have happly : (retry (node task children)).toOption = some u := happly
        cases hresult : retry (node task children) with
        | error message => rw [hresult] at happly; exact nomatch happly
        | ok t => rw [hresult] at happly; exact congrArg _ (Option.some.inj happly)
      have hgrows := retry_grows hretry
      refine ⟨h.grows hgrows, ?_⟩
      cases u
      exact hgrows.1.cost.ge

/-- What happens to a tree of Tasks: an event at one of them. -/
abbrev Happens : Tree → List Nat × Event → Tree → Prop := Under fun t event u => apply event t = some u

theorem childCosts_set {children : List Tree} {i : Nat} {child child' : Tree} (hget : children[i]? = some child)
    (hle : child.value.cost ≤ child'.value.cost) : childCosts children ≤ childCosts (children.set i child') := by
  induction children generalizing i with
  | nil => exact nomatch hget
  | cons first rest ih =>
    cases i with
    | zero =>
      cases hget
      simp only [childCosts, List.set_cons_zero, List.map_cons, List.sum_cons]
      exact add_le_add hle (le_refl _)
    | succ i =>
      have hrest := ih hget
      simp only [childCosts, List.set_cons_succ, List.map_cons, List.sum_cons] at hrest ⊢
      exact add_le_add (le_refl _) hrest

/-- An event anywhere keeps the tree balanced. -/
theorem happens_balanced {t u : Tree} {label : List Nat × Event} (hnonneg : label.2.Nonneg) (h : Balanced t) (hstep : Happens t label u) :
    Balanced u ∧ t.value.cost ≤ u.value.cost := by
  induction hstep with
  | here happly => exact apply_balanced hnonneg h happly
  | @inside task children i path child child' event hget _ ih =>
    obtain ⟨hchild, hle⟩ := ih hnonneg (balancedAll_iff.mp h.2 child (List.mem_of_getElem? hget))
    refine ⟨⟨⟨h.1.nonneg, fun plan hplan => ?_, h.1.attempt⟩, balancedAll_iff.mpr fun other hother => ?_⟩, le_refl _⟩
    · obtain ⟨hcost, haccounted⟩ := h.1.planned plan hplan
      exact ⟨hcost, haccounted.trans (childCosts_set hget hle)⟩
    · obtain hold | rfl := List.mem_or_eq_of_mem_set hother
      · exact balancedAll_iff.mp h.2 other hold
      · exact hchild

/-- What a plan costs when a pass has ended it. -/
theorem Passed.counted {reply : Reply} {task : Task} {accounted : ℚ} {children : List Tree} {t : Tree}
    (hpassed : Passed reply task accounted children (.finalized t))
    (hcost : task.cost = task.own + accounted) (hle : accounted ≤ childCosts children) :
    t.value.cost = t.value.own + childCosts t.children := by
  cases hpassed with
  | @ends charge task' plan' children' success _ hcharged haccounted hgrow =>
    refine finalize_cost reply ?_ ?_ success
    · rw [hcharged.cost, hcharged.own, haccounted, hcost]
      ring
    · rw [haccounted, childCosts_grow (GrowAll.mono Keeps.sameCosts hgrow)]
      exact hle

/-- A plan that has just been made is not at its end. -/
theorem enter_ne_finalized (task : Task) (plan : Plan) (children : List Tree) (step : Nat) (t : Tree) :
    enter task plan children step ≠ .finalized t := by
  rw [enter, activateStep]
  intro h
  split at h
  case h_1 => cases h
  case h_2 =>
    dsimp only at h
    split at h <;> cases h

theorem advance_counted {reply : Reply} {t u : Tree} (h : Balanced t) (hfinal : advance reply t = .finalized u) :
    u.value.cost = u.value.own + childCosts u.children := by
  cases t with
  | node task children =>
    rw [advance] at hfinal
    split at hfinal
    case isTrue => exact nomatch hfinal
    case isFalse hgoes =>
      have hplanning : task.status = .plan := by
        by_contra hother
        exact hgoes (by simp [hother])
      cases hplan : task.plan with
      | none =>
        rw [hplan] at hfinal
        dsimp only at hfinal
        split at hfinal
        case h_1 => exact nomatch hfinal
        case h_2 =>
          rw [startPlan] at hfinal
          split at hfinal
          case h_1 => exact nomatch hfinal
          case h_2 => exact nomatch hfinal
          case h_3 =>
            dsimp only at hfinal
            split at hfinal
            case isTrue => exact nomatch hfinal
            case isFalse => exact absurd hfinal (enter_ne_finalized _ _ _ _ _)
      | some plan =>
        obtain ⟨hcost, hle⟩ := h.1.planned plan hplan
        rw [← begun_accounted plan] at hcost hle
        rw [hplan] at hfinal
        dsimp only at hfinal
        have hpassed : Passed reply task plan.begun.accountedChildCost children
            (advancePlan reply task plan.begun children) := advancePlan_passed hplanning
        split at hfinal
        case h_1 => exact nomatch hfinal
        case h_2 =>
          rw [hfinal] at hpassed
          exact hpassed.counted hcost hle

theorem balanced_get {t u : Tree} {path : List Nat} (h : Balanced t) (hget : t.get? path = some u) : Balanced u := by
  induction path generalizing t with
  | nil =>
    cases hget
    exact h
  | cons i path ih =>
    obtain ⟨child, hchild, hrest⟩ := Option.bind_eq_some_iff.mp hget
    exact ih (balancedAll_iff.mp h.children child (List.mem_of_getElem? hchild)) hrest

/-- Whatever has happened in a tree since its root was a Task without a plan, retries included: a pass that
ends a plan leaves it with what it was charged itself and what each of its children costs, once. -/
theorem finalize_counts_once {root : Task} (hunplanned : root.plan = none) (hidle : root.status ≠ .exec) (hpos : 0 ≤ root.cost)
    {labels : List (List Nat × Event)} {t n n' : Tree} {path : List Nat} {reply : Reply}
    (hrun : Steps (Guarded Happens fun _ label => label.2.Nonneg) (node root []) labels t) (hget : t.get? path = some n)
    (hfinal : advance reply n = .finalized n') : n'.value.cost = n'.value.own + childCosts n'.children := by
  have hroot : Balanced (node root []) :=
    ⟨⟨hpos, fun plan hplan => (nomatch hunplanned.symm.trans hplan), fun hexec => absurd hexec hidle⟩, trivial⟩
  have hbalanced : Balanced t := hrun.invariant (P := Balanced) (fun _ _ _ hs hstep => (happens_balanced hstep.1 hs hstep.2).1) hroot
  exact advance_counted (balanced_get hbalanced hget) hfinal

/-- The only step of a plan fails at the first attempt and succeeds after a retry: planning cost 1, the
attempts 2 and 3, the final text 1. -/
theorem finalize_counts_once_retried : ∃ labels t n',
    Steps (Guarded Happens fun _ label => label.2.Nonneg) (node {id := 0, status := .plan} []) labels t ∧
    labels.length = 9 ∧ advance {synthesis := some 1} t = .finalized n' ∧ n'.value.cost = 7 ∧
    n'.value.cost = n'.value.own + childCosts n'.children := by
  have hquiet : Reply.Nonneg {} := ⟨⟨nofun, nofun⟩, nofun, le_refl _⟩
  have hnonneg : Reply.Nonneg {building := .built 1 [{}] false} :=
    ⟨⟨nofun, fun cost _ _ h => by cases h; exact zero_le_one⟩, nofun, le_refl _⟩
  have hbuilt : apply (.advance {building := .built 1 [{}] false}) (node {id := 0, status := .plan} []) =
      some (node
        {id := 0, status := .plan, pauses := [.plan], plan := some {steps := [{}]}, cost := 1, own := 1}
        [node {id := 0, status := .dispatch, planDepth := 1} []]) := by
    simp [apply, advance, startPlan, enter, activateStep, ensureChildren, ensure, ensureEach, missing, materialize, materializeAll,
      Task.isHeldByUser, Task.isPausedFor, childForStep, activate, Outcome.tree, Step.child, Step.plan, freshId, Task.markPlanWaiting,
      Task.suspend, Task.release, Status.isTerminal]
  have hfailed : apply (.advance {}) (node
        {id := 0, status := .plan, pauses := [.plan], plan := some {steps := [{}]}, cost := 1, own := 1}
        [node {id := 0, status := .error, planDepth := 1, cost := 2, attempts := 1} []]) =
      some (node
        {id := 0, status := .error, cost := 3, own := 1,
         plan := some {steps := [{}], failureTaskId := some 0, accountedChildCost := 2}}
        [node {id := 0, status := .error, planDepth := 1, cost := 2, attempts := 1} []]) := by
    simp [apply, advance, advancePlan, Plan.begun, Task.isHeldByUser, Task.isPausedFor, childForStep, Task.hasTerminalOutcome,
      continueAfterFailure, finalize, childCosts, runsAfterFailure, Outcome.tree, close, closeAll, Status.isTerminal]
    norm_num
  have hretried : apply .retry (node
        {id := 0, status := .error, cost := 3, own := 1,
         plan := some {steps := [{}], failureTaskId := some 0, accountedChildCost := 2}}
        [node {id := 0, status := .error, planDepth := 1, cost := 2, attempts := 1} []]) =
      some (node {id := 0, status := .plan, plan := some {steps := [{}], accountedChildCost := 2}, cost := 3, own := 1}
        [node {id := 0, status := .dispatch, pauses := [.plan], planDepth := 1, cost := 2, attempts := 1} []]) := by
    simp [apply, retry, ended, endedAll, reopen, reopenAll, restart, Plan.reopened, unfinished, closes, runsAfterFailure, Status.isTerminal,
      Except.toOption]
  have hreturned : apply (.advance {}) (node
        {id := 0, status := .plan, plan := some {steps := [{}], accountedChildCost := 2}, cost := 3, own := 1}
        [node {id := 0, status := .dispatch, pauses := [.plan], planDepth := 1, cost := 2, attempts := 1} []]) =
      some (node
        {id := 0, status := .plan, pauses := [.plan], cost := 3, own := 1,
         plan := some {steps := [{}], accountedChildCost := 2}}
        [node {id := 0, status := .dispatch, planDepth := 1, cost := 2, attempts := 1} []]) := by
    simp [apply, advance, advancePlan, Plan.begun, Task.isHeldByUser, Task.isPausedFor, childForStep, activateStep, activate,
      Outcome.tree, Task.markPlanWaiting, Task.suspend, Task.release, Status.isTerminal]
  have hfinal : advance {synthesis := some 1}
        (node
          {id := 0, status := .plan, pauses := [.plan], cost := 3, own := 1,
           plan := some {steps := [{}], accountedChildCost := 2}}
          [node {id := 0, status := .success, planDepth := 1, cost := 5, attempts := 2} []]) =
      .finalized (node
        {id := 0, status := .success, cost := 7, own := 2,
         plan := some {steps := [{}], cursor := 1, accountedChildCost := 5}}
        [node {id := 0, status := .success, planDepth := 1, cost := 5, attempts := 2} []]) := by
    simp [advance, advancePlan, goOn, Plan.begun, Task.isHeldByUser, Task.isPausedFor, childForStep, finalize, childCosts]
    norm_num
  have hfirst : updateAfterExecution {id := 0, status := .exec, planDepth := 1, attempt := some 0, attempts := 1} .failed 0 2 =
      {id := 0, status := .error, lease := true, planDepth := 1, cost := 2, attempts := 1} := by
    simp [updateAfterExecution]
  have hsecond : updateAfterExecution
      {id := 0, status := .exec, planDepth := 1, cost := 2, attempt := some 2, attempts := 2} (.succeeded false) 2 3 =
      {id := 0, status := .success, planDepth := 1, cost := 5, attempts := 2} := by
    simp [updateAfterExecution]
    norm_num
  have hrun : Steps (Guarded Happens fun _ label => label.2.Nonneg) (node {id := 0, status := .plan} [])
      [([], .advance {building := .built 1 [{}] false}), ([0], .begin), ([0], .finish .failed 2), ([0], .settle false), ([], .advance {}),
        ([], .retry), ([], .advance {}), ([0], .begin), ([0], .finish (.succeeded false) 3)]
      (node {id := 0, status := .plan, pauses := [.plan], plan := some {steps := [{}], accountedChildCost := 2}, cost := 3, own := 1}
          [node {id := 0, status := .success, planDepth := 1, cost := 5, attempts := 2} []]) := by
    refine .cons ⟨hnonneg, .here hbuilt⟩ <| .cons ⟨trivial, .inside rfl (.here rfl)⟩ <|
      .cons ⟨zero_le_two, .inside rfl (.here (congrArg (fun task => some (node task [])) hfirst))⟩ <|
      .cons ⟨trivial, .inside rfl (.here rfl)⟩ <| .cons ⟨hquiet, .here hfailed⟩ <| .cons ⟨trivial, .here hretried⟩ <|
      .cons ⟨hquiet, .here hreturned⟩ <| .cons ⟨trivial, .inside rfl (.here rfl)⟩ <|
      .cons ⟨zero_le_three, .inside rfl (.here (congrArg (fun task => some (node task [])) hsecond))⟩ <| .nil _
  exact ⟨_, _, _, hrun, rfl, hfinal, rfl, finalize_counts_once rfl (by decide) (le_refl 0) hrun
    (show Rose.get? _ [] = some _ from rfl) hfinal⟩

end Galaris.Agent.Planner
