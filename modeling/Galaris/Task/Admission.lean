import Galaris.Task.Budget
import Mathlib.Data.List.Nodup
import Mathlib.Data.List.Perm.Subperm

/-! What an admission leaves room for.

The search for the root ends, and reports a cycle exactly where the way up comes back
(`root_spec`). An admission counts the leases of its scope once it has the lock of the scope,
so that no other claim under this lock is open; the reservation it makes then fits with all that
is recorded and reserved (`Fits`), unless a call was recorded between its two reads, or a Task of
its scope or tree was admitted under another lock. The first is open to every scope. The
second needs a Task whose goal is not that of its root (`lockKey_eq`). -/
namespace Galaris.Tasks.Budget

open Transition

variable {forest : Forest} {settings : Settings}

/-! ### The root -/

namespace Forest

theorem eq_of_id {row other : Row} (hrow : row ∈ forest.rows) (hother : other ∈ forest.rows) (h : row.id = other.id) :
    row = other := List.inj_on_of_nodup_map forest.ids hrow hother h

theorem get?_eq_some {id : Id} {row : Row} : forest.get? id = some row ↔ row ∈ forest.rows ∧ row.id = id := by
  unfold get?
  constructor
  · intro h
    exact ⟨List.mem_of_find?_eq_some h, by simpa using List.find?_some h⟩
  · rintro ⟨hmem, rfl⟩
    obtain ⟨found, hfound⟩ : ∃ found, forest.rows.find? (·.id = row.id) = some found := by
      rw [← Option.isSome_iff_exists, List.find?_isSome]
      exact ⟨row, hmem, by simp⟩
    have hid : found.id = row.id := by simpa using List.find?_some hfound
    rw [hfound, eq_of_id (List.mem_of_find?_eq_some hfound) hmem hid]

/-- One step of the way up: to the parent or the source, if it is there. -/
def Up (forest : Forest) (row above : Row) : Prop := ∃ id, row.above = some id ∧ forest.get? id = some above

/-- Following the parents or sources from the Task comes back to a Task. -/
def Revisits (forest : Forest) (task : Row) : Prop :=
  ∃ row, Relation.ReflTransGen forest.Up task row ∧ Relation.TransGen forest.Up row row

theorem up_unique : Relator.RightUnique forest.Up := by
  rintro row above above' ⟨id, hid, habove⟩ ⟨id', hid', habove'⟩
  rw [hid, Option.some.injEq] at hid'
  rw [← hid', habove] at habove'
  exact Option.some.inj habove'

theorem Up.mem {row above : Row} (h : forest.Up row above) : above ∈ forest.rows := by
  obtain ⟨id, -, habove⟩ := h
  exact (get?_eq_some.mp habove).1

/-- The way up from a cycle stays on cycles. -/
theorem cycle_up {row other : Row} (hcycle : Relation.TransGen forest.Up row row)
    (h : Relation.ReflTransGen forest.Up row other) : Relation.TransGen forest.Up other other := by
  induction h with
  | refl => exact hcycle
  | @tail middle other _ hup ih =>
    obtain ⟨above, habove, hback⟩ := Relation.TransGen.head'_iff.mp ih
    rw [up_unique habove hup] at hback
    exact Relation.TransGen.tail' hback hup

/-- Where the way up ends there was no cycle on it. -/
theorem not_revisits_of_end {task last : Row} (h : Relation.ReflTransGen forest.Up task last)
    (hend : ∀ above, ¬ forest.Up last above) : ¬ forest.Revisits task := by
  rintro ⟨row, hrow, hcycle⟩
  -- One of the two ways from the Task goes on from the end of the other.
  obtain hon | hback := Relation.ReflTransGen.total_of_right_unique up_unique hrow h
  · obtain ⟨above, habove, -⟩ := Relation.TransGen.head'_iff.mp (cycle_up hcycle hon)
    exact hend above habove
  · obtain rfl | ⟨above, habove, -⟩ := Relation.ReflTransGen.cases_head hback
    · obtain ⟨above, habove, -⟩ := Relation.TransGen.head'_iff.mp hcycle
      exact hend above habove
    · exact hend above habove

/-- The search ends with a Task that has none above, or with a Task that it has seen. -/
theorem climb_spec {task : Row} {fuel : Nat} {seen : List Id} {row : Row}
    (hpath : Relation.ReflTransGen forest.Up task row)
    (hseen : ∀ id ∈ seen, ∃ other ∈ forest.rows, other.id = id ∧ Relation.TransGen forest.Up other row)
    (hnodup : seen.Nodup) (hmem : row ∈ forest.rows)
    (hfuel : forest.rows.length < fuel + seen.length) :
    (∃ root, forest.climb fuel seen row = some (.ok root) ∧ Relation.ReflTransGen forest.Up task root ∧
        ∀ above, ¬ forest.Up root above) ∨
      forest.climb fuel seen row = some (.error ()) ∧ forest.Revisits task := by
  induction fuel generalizing seen row with
  | zero =>
    have hsub : seen ⊆ forest.rows.map (·.id) := fun id hid => by
      obtain ⟨other, hother, rfl, -⟩ := hseen id hid
      exact List.mem_map_of_mem hother
    have hle := (List.subperm_of_subset hnodup hsub).length_le
    rw [List.length_map] at hle
    omega
  | succ fuel ih =>
    unfold climb
    cases habove : row.above with
    | none =>
      refine .inl ⟨row, rfl, hpath, fun above hup => ?_⟩
      obtain ⟨id, hid, -⟩ := hup
      rw [habove] at hid
      cases hid
    | some parentId =>
      dsimp only
      split
      case isTrue hin =>
        obtain ⟨other, hother, hid, hcycle⟩ := hseen _ hin
        rw [eq_of_id hother hmem hid] at hcycle
        exact .inr ⟨rfl, row, hpath, hcycle⟩
      case isFalse hnew =>
        cases hparent : forest.get? parentId with
        | none =>
          refine .inl ⟨row, rfl, hpath, fun above hup => ?_⟩
          obtain ⟨id, hid, hfound⟩ := hup
          rw [habove, Option.some.injEq] at hid
          rw [← hid, hparent] at hfound
          cases hfound
        | some parent =>
          have hup : forest.Up row parent := ⟨parentId, habove, hparent⟩
          refine ih (hpath.tail hup) (fun id hid => ?_) (List.nodup_cons.mpr ⟨hnew, hnodup⟩) hup.mem ?_
          · obtain rfl | hid := List.mem_cons.mp hid
            · exact ⟨row, hmem, rfl, .single hup⟩
            · obtain ⟨other, hother, heq, hway⟩ := hseen id hid
              exact ⟨other, hother, heq, hway.tail hup⟩
          · rw [List.length_cons]
            omega

/-- The search for the root ends; it reports a cycle exactly where the way up comes back. -/
theorem root_spec {task : Row} (hmem : task ∈ forest.rows) :
    (forest.root task).isSome = true ∧ (forest.root task = some (.error ()) ↔ forest.Revisits task) := by
  have hspec := @climb_spec forest task (forest.rows.length + 1) [] task .refl
    (fun _ hid => absurd hid List.not_mem_nil) List.nodup_nil hmem (by simp)
  unfold root
  obtain ⟨last, hlast, hway, hend⟩ | ⟨herror, hrevisits⟩ := hspec
  · rw [hlast]
    exact ⟨rfl, nofun, fun h => absurd h (not_revisits_of_end hway hend)⟩
  · rw [herror]
    exact ⟨rfl, fun _ => hrevisits, fun _ => rfl⟩

/-- The root is above the Task, with none above it. -/
theorem root_ok {task root : Row} (hmem : task ∈ forest.rows) (h : forest.root task = some (.ok root)) :
    Relation.ReflTransGen forest.Up task root ∧ ∀ above, ¬ forest.Up root above := by
  have hspec := @climb_spec forest task (forest.rows.length + 1) [] task .refl
    (fun _ hid => absurd hid List.not_mem_nil) List.nodup_nil hmem (by simp)
  unfold Forest.root at h
  obtain ⟨last, hlast, hway, hend⟩ | ⟨herror, -⟩ := hspec
  · rw [hlast, Option.some.injEq, Except.ok.injEq] at h
    exact h ▸ ⟨hway, hend⟩
  · rw [herror] at h
    cases h

/-- The root is where the way up ends. -/
theorem root_of_end {task last : Row} (hmem : task ∈ forest.rows) (hway : Relation.ReflTransGen forest.Up task last)
    (hend : ∀ above, ¬ forest.Up last above) : forest.root task = some (.ok last) := by
  obtain ⟨hsome, hcycle⟩ := root_spec hmem
  cases hroot : forest.root task with
  | none =>
    rw [hroot] at hsome
    cases hsome
  | some result =>
    cases result with
    | error => exact absurd (hcycle.mp hroot) (not_revisits_of_end hway hend)
    | ok root =>
      obtain ⟨hway', hend'⟩ := root_ok hmem hroot
      have hsame : root = last := by
        obtain hon | hon := Relation.ReflTransGen.total_of_right_unique up_unique hway' hway
        · obtain heq | ⟨above, habove, -⟩ := Relation.ReflTransGen.cases_head hon
          · exact heq
          · exact absurd habove (hend' above)
        · obtain heq | ⟨above, habove, -⟩ := Relation.ReflTransGen.cases_head hon
          · exact heq.symm
          · exact absurd habove (hend above)
      rw [hsame]

theorem root_mem {task root : Row} (hmem : task ∈ forest.rows)
    (h : forest.root task = some (.ok root)) : root ∈ forest.rows := by
  obtain rfl | ⟨below, -, hlast⟩ := Relation.ReflTransGen.cases_tail (root_ok hmem h).1
  · exact hmem
  · exact hlast.mem

/-- What lies on the way up has the same root. -/
theorem root_of_way {task root other : Row} (hmem : task ∈ forest.rows) (h : forest.root task = some (.ok root))
    (hway : Relation.ReflTransGen forest.Up task other) : forest.root other = some (.ok root) := by
  obtain ⟨hroot, hend⟩ := root_ok hmem h
  have hother : other ∈ forest.rows := by
    obtain rfl | ⟨below, -, hlast⟩ := Relation.ReflTransGen.cases_tail hway
    · exact hmem
    · exact hlast.mem
  refine root_of_end hother ?_ hend
  obtain hon | hon := Relation.ReflTransGen.total_of_right_unique up_unique hway hroot
  · exact hon
  · obtain rfl | ⟨above, habove, -⟩ := Relation.ReflTransGen.cases_head hon
    · exact .refl
    · exact absurd habove (hend above)

/-! ### The lineage -/

theorem mem_edges {above below : Id} : (above, below) ∈ forest.edges ↔ ∃ row ∈ forest.rows,
    row.above = some above ∧ row.id = below := by
  unfold edges
  rw [List.mem_filterMap]
  refine exists_congr fun row => and_congr_right fun _ => ?_
  rw [Option.map_eq_some_iff]
  constructor
  · rintro ⟨id, habove, heq⟩
    cases heq
    exact ⟨habove, rfl⟩
  · rintro ⟨habove, rfl⟩
    exact ⟨above, habove, rfl⟩

/-- A way down the edges is a way up. -/
theorem up_of_way {seed row : Row} (hseed : seed ∈ forest.rows) (hrow : row ∈ forest.rows)
    (h : Search.Way forest.edges seed.id row.id) : Relation.ReflTransGen forest.Up row seed := by
  have hfound : ∃ other ∈ forest.rows, other.id = row.id ∧ Relation.ReflTransGen forest.Up other seed := by
    generalize row.id = below at h ⊢
    induction h with
    | refl => exact ⟨seed, hseed, rfl, .refl⟩
    | tail _ hedge ih =>
      obtain ⟨parent, hparent, hid, hway⟩ := ih
      obtain ⟨child, hchild, habove, hbelow⟩ := mem_edges.mp hedge
      exact ⟨child, hchild, hbelow, .head ⟨_, habove, get?_eq_some.mpr ⟨hparent, hid⟩⟩ hway⟩
  obtain ⟨other, hother, hid, hway⟩ := hfound
  exact eq_of_id hother hrow hid ▸ hway

theorem mem_lineage {root : Row} {goal : Option Id} {id : Id} (h : id ∈ forest.lineage root goal) :
    ∃ row ∈ forest.rows, row.id = id ∧ ∃ seed ∈ forest.seeds root goal, Relation.ReflTransGen forest.Up row seed := by
  unfold lineage at h
  obtain ⟨row, hrow, rfl⟩ := List.mem_map.mp h
  obtain ⟨hmem, hany⟩ := List.mem_filter.mp hrow
  obtain ⟨seed, hseed, hfound⟩ := List.any_eq_true.mp hany
  refine ⟨row, hmem, rfl, seed, hseed, up_of_way (List.mem_filter.mp hseed).1 hmem (Search.search_iff.mp hfound)⟩

end Forest

/-! ### Scopes and locks -/

/-- The scope of the Task. -/
def Scoped (forest : Forest) (settings : Settings) (task : Id) (scope : Scope) : Prop :=
  ∃ row root, forest.get? task = some row ∧ forest.root row = some (.ok root) ∧ scope = scopeOf settings root row

/-- Where goals are shared, a Task with a goal has the goal of its root. -/
def GoalsAgree (forest : Forest) (settings : Settings) : Prop :=
  settings.shareGoal = true → ∀ row ∈ forest.rows, ∀ root, forest.root row = some (.ok root) →
    ∀ goal, row.goalId = some goal → root.goalId = some goal

/-- The scope is then that of the root. -/
theorem scopeOf_root (hagree : GoalsAgree forest settings) {row root : Row} (hmem : row ∈ forest.rows)
    (hroot : forest.root row = some (.ok root)) : scopeOf settings root row = scopeOf settings root root := by
  unfold scopeOf
  split
  case isTrue hshare =>
    cases hgoal : row.goalId with
    | none => cases root.goalId <;> rfl
    | some goal =>
      rw [hagree hshare row hmem root hroot goal hgoal]
  case isFalse => rfl

theorem goal_of_scopeOf {root task : Row} {goal : Id} (h : (scopeOf settings root task).goal = some goal) :
    settings.shareGoal = true ∧ (root.goalId = some goal ∨ task.goalId = some goal) := by
  unfold scopeOf at h
  dsimp only at h
  split at h
  case isTrue hshare =>
    refine ⟨hshare, ?_⟩
    cases hroot : root.goalId with
    | none =>
      rw [hroot] at h
      exact .inr h
    | some found =>
      rw [hroot] at h
      exact .inl h
  case isFalse => cases h

/-- Where goals agree, two Tasks take the same lock if one is in the scope of the other, or they have the same root. -/
theorem lockKey_eq (hagree : GoalsAgree forest settings) {task other : Id} {scope scope' : Scope}
    (h : Scoped forest settings task scope) (h' : Scoped forest settings other scope')
    (hover : other ∈ scope.ids forest ∨ scope'.root = scope.root) : scope'.lockKey = scope.lockKey := by
  obtain ⟨row, root, hrow, hroot, rfl⟩ := h
  obtain ⟨row', root', hrow', hroot', rfl⟩ := h'
  obtain ⟨hmem, -⟩ := Forest.get?_eq_some.mp hrow
  obtain ⟨hmem', hid'⟩ := Forest.get?_eq_some.mp hrow'
  rw [scopeOf_root hagree hmem hroot] at hover ⊢
  rw [scopeOf_root hagree hmem' hroot'] at hover ⊢
  obtain hin | hsame := hover
  · obtain ⟨found, hfound, hid, seed, hseed, hup⟩ := Forest.mem_lineage hin
    rw [Forest.eq_of_id hfound hmem' (hid.trans hid'.symm)] at hup
    obtain ⟨hseedmem, hseed⟩ := List.mem_filter.mp hseed
    have hseedroot : forest.root seed = some (.ok root') := Forest.root_of_way hmem' hroot' hup
    cases hgoal : (scopeOf settings root root).goal with
    | none =>
      rw [hgoal] at hseed
      have hrootmem := Forest.root_mem hmem hroot
      rw [Forest.eq_of_id hseedmem hrootmem (of_decide_eq_true hseed),
        Forest.root_of_end hrootmem .refl (Forest.root_ok hmem hroot).2, Option.some.injEq,
        Except.ok.injEq] at hseedroot
      rw [hseedroot]
    | some goal =>
      rw [hgoal] at hseed
      obtain ⟨hshare, -⟩ := goal_of_scopeOf hgoal
      have hgoal' : (scopeOf settings root' root').goal = some goal := by
        unfold scopeOf
        rw [if_pos hshare, hagree hshare seed hseedmem root' hseedroot goal (of_decide_eq_true hseed)]
        rfl
      unfold Scope.lockKey
      rw [hgoal, hgoal']
      rfl
  · have hroots : root' = root := hsame
    rw [hroots]

/-! ### What the reservation has to leave room for -/

/-- The leases of the scope: those that are live now, and those that are written but not committed. -/
def reserved (forest : Forest) (s : State) (ids : List Id) : Nat :=
  (forest.rows.filter fun row =>
    row.id ∈ ids && (live s.clock (s.leases row.id) || (s.claims row.id).any (·.isAdmitted))).length

/-- What is recorded and reserved in the scope stays within the maxima. -/
def Fits (forest : Forest) (settings : Settings) (s : State) (scope : Scope) : Prop :=
  (settings.maxTokens ≠ 0 →
    usedTokens s.calls (scope.ids forest) + reserved forest s
    (scope.ids forest) * settings.tokenReserve ≤ settings.maxTokens) ∧
  (settings.maxCost ≠ 0 →
    usedCost s.calls (scope.ids forest) + reserved forest s
    (scope.ids forest) * settings.costReserve ≤ settings.maxCost)

/-- A call is recorded for a Task of a scope between the two reads of an admission there; or an admission is
decided while another Task of its scope or of its tree is admitted, and not committed, under another lock. -/
def bad (forest : Forest) (s : State) : Event → Bool
  | .record call => forest.rows.any fun row =>
    match s.claims row.id with
    | some (.charged _ scope _ _ _) => call.task ∈ scope.ids forest
    | _ => false
  | .decide task =>
    match s.claims task with
    | some (.charged _ scope _ _ _) => forest.rows.any fun row =>
      match s.claims row.id with
      | some (.admitted _ (some other)) =>
        row.id ≠ task && other.lockKey ≠ scope.lockKey && (row.id ∈ scope.ids forest || other.root = scope.root)
      | _ => false
    | _ => false
  | _ => false

/-- What a step does to a claim. -/
inductive Moves (forest : Forest) (settings : Settings) (s : State) : Event → Id → Option Claim → Prop
  | locked {task : Id} {capacity : Capacity} {scope : Scope} (hscoped : Scoped forest settings task scope)
      (henabled : settings.enabled = true) (hfree : s.busy forest scope.lockKey = false) :
      Moves forest settings s (.claim task capacity) task (some (.locked s.clock scope))
  | unlimited {task : Id} {capacity : Capacity} (henabled : settings.enabled = false) :
      Moves forest settings s (.claim task capacity) task (some (.admitted s.clock none))
  | charged {task : Id} {now : Nat} {scope : Scope} (hclaim : s.claims task = some (.locked now scope)) :
      Moves forest settings s (.charge task) task
        (some (.charged now scope (forest.startedAt scope.root scope.goal) (usedTokens s.calls (scope.ids forest))
          (usedCost s.calls (scope.ids forest))))
  | admitted {task : Id} {now startedAt tokens : Nat} {cost : ℚ} {scope : Scope}
      (hclaim : s.claims task = some (.charged now scope startedAt tokens cost))
      (hfits : refusal settings now startedAt tokens cost (s.activeLeases forest (scope.ids forest) now task) = none) :
      Moves forest settings s (.decide task) task (some (.admitted now (some scope)))
  | ended {event : Event} {task : Id} : Moves forest settings s event task none

/-- A step moves one claim; or it moves none, and time or accounting go on. -/
theorem apply_cases {s s' : State} {event : Event} (h : apply forest settings s event = some s') :
    (s'.claims = s.claims ∧ s.clock ≤ s'.clock ∧
        (s'.calls = s.calls ∨ ∃ call, event = .record call ∧ s'.calls = s.calls ++ [call])) ∨
      (s'.clock = s.clock ∧ s'.calls = s.calls ∧
        ∃ task next, s'.claims = Function.update s.claims task next ∧ Moves forest settings s event task next) := by
  cases event with
  | claim task capacity =>
    unfold apply at h
    dsimp only at h
    split at h
    case h_1 => cases h
    case h_2 row hrow =>
      split at h
      case isFalse => cases h
      case isTrue =>
        obtain ⟨hmem, rfl⟩ := Forest.get?_eq_some.mp hrow
        unfold admitTask at h
        split at h
        case h_1 =>
          cases h
          exact .inr ⟨rfl, rfl, row.id, none, rfl, .ended⟩
        case h_2 =>
          cases h
          exact .inl ⟨rfl, le_rfl, .inl rfl⟩
        case h_3 =>
          split at h
          case isFalse henabled =>
            cases h
            exact .inr ⟨rfl, rfl, row.id, _, rfl, .unlimited (Bool.eq_false_iff.mpr henabled)⟩
          case isTrue henabled =>
            split at h
            case h_1 => cases h
            case h_2 =>
              cases h
              exact .inr ⟨rfl, rfl, row.id, none, rfl, .ended⟩
            case h_3 root hroot =>
              dsimp only at h
              split at h
              case isTrue =>
                cases h
                exact .inl ⟨rfl, le_rfl, .inl rfl⟩
              case isFalse hfree =>
                cases h
                exact .inr ⟨rfl, rfl, row.id, _, rfl,
                  .locked ⟨row, root, hrow, hroot, rfl⟩ henabled (Bool.eq_false_iff.mpr hfree)⟩
  | charge task =>
    unfold apply at h
    dsimp only at h
    split at h
    case h_1 now scope hclaim =>
      cases h
      exact .inr ⟨rfl, rfl, task, _, rfl, .charged hclaim⟩
    case h_2 => cases h
  | decide task =>
    unfold apply at h
    dsimp only at h
    split at h
    case h_1 now scope startedAt tokens cost hclaim =>
      split at h
      case h_1 =>
        cases h
        exact .inr ⟨rfl, rfl, task, none, rfl, .ended⟩
      case h_2 hfits =>
        cases h
        exact .inr ⟨rfl, rfl, task, _, rfl, .admitted hclaim hfits⟩
    case h_2 => cases h
  | commit task =>
    unfold apply at h
    dsimp only at h
    split at h
    case h_1 =>
      cases h
      exact .inr ⟨rfl, rfl, task, none, rfl, .ended⟩
    case h_2 => cases h
  | rollback task =>
    unfold apply at h
    dsimp only at h
    split at h
    case isTrue =>
      cases h
      exact .inr ⟨rfl, rfl, task, none, rfl, .ended⟩
    case isFalse => cases h
  | record call =>
    cases h
    exact .inl ⟨rfl, le_rfl, .inr ⟨call, rfl, rfl⟩⟩
  | renew task =>
    unfold apply at h
    dsimp only at h
    split at h
    case h_1 =>
      split at h
      case isTrue =>
        cases h
        exact .inl ⟨rfl, le_rfl, .inl rfl⟩
      case isFalse => cases h
    case h_2 => cases h
  | release task =>
    unfold apply at h
    dsimp only at h
    split at h
    case isTrue =>
      cases h
      exact .inl ⟨rfl, le_rfl, .inl rfl⟩
    case isFalse => cases h
  | tick seconds =>
    cases h
    exact .inl ⟨rfl, Nat.le_add_right _ _, .inl rfl⟩

/-! ### The invariant -/

/-- The claim of the Task has the lock of the scope. -/
def Holds (s : State) (task : Id) (scope : Scope) : Prop := (s.claims task).bind (·.scope) = some scope

/-- Claims are about their scope, one for each lock; what was read of the calls is still so. -/
structure Inv (forest : Forest) (settings : Settings) (s : State) : Prop where
  clock : ∀ task claim, s.claims task = some claim → claim.now ≤ s.clock
  about : ∀ task scope, Holds s task scope → Scoped forest settings task scope ∧ settings.enabled = true
  unlimited : ∀ task now, s.claims task = some (.admitted now none) → settings.enabled = false
  locks : ∀ task other scope scope', Holds s task scope → Holds s other scope' →
    scope.lockKey = scope'.lockKey → task = other
  charged : ∀ task now scope startedAt tokens cost, s.claims task = some (.charged now scope startedAt tokens cost) →
    tokens = usedTokens s.calls (scope.ids forest) ∧ cost = usedCost s.calls (scope.ids forest)
  apart : ∀ task other now now' scope scope', s.claims task = some (.admitted now (some scope)) →
    s.claims other = some (.admitted now' (some scope')) → scope.root = scope'.root → task = other

theorem Inv.start {s : State} (h : ∀ task, s.claims task = none) : Inv forest settings s where
  clock task claim hclaim := by
    rw [h] at hclaim
    cases hclaim
  about task scope hholds := by
    unfold Holds at hholds
    rw [h] at hholds
    cases hholds
  unlimited task now hclaim := by
    rw [h] at hclaim
    cases hclaim
  locks task other scope scope' hholds := by
    unfold Holds at hholds
    rw [h] at hholds
    cases hholds
  charged task now scope startedAt tokens cost hclaim := by
    rw [h] at hclaim
    cases hclaim
  apart task other now now' scope scope' hclaim := by
    rw [h] at hclaim
    cases hclaim

/-- Nobody has the lock that is free. -/
theorem not_holds_of_free {s : State} (h : Inv forest settings s) {key : Nat} (hfree : s.busy forest key = false)
    {task : Id} {scope : Scope} (hholds : Holds s task scope) : scope.lockKey ≠ key := by
  intro heq
  obtain ⟨⟨row, -, hrow, -, -⟩, -⟩ := h.about task scope hholds
  obtain ⟨hmem, rfl⟩ := Forest.get?_eq_some.mp hrow
  have hbusy : s.busy forest key = true := by
    refine List.any_eq_true.mpr ⟨row, hmem, ?_⟩
    have hscope : (s.claims row.id).bind (·.scope) = some scope := hholds
    rw [hscope]
    exact decide_eq_true heq
  rw [hfree] at hbusy
  cases hbusy

/-- What a move does to the locks: they stay, but for the claim that moves; it has the lock that it had, or
a free one. -/
theorem holds_of_moves {s s' : State} {event : Event} {task other : Id} {next : Option Claim} {scope : Scope}
    (hmoves : Moves forest settings s event task next) (hclaims : s'.claims = Function.update s.claims task next)
    (hholds : Holds s' other scope) :
    Holds s other scope ∨
      other = task ∧ Scoped forest settings task scope ∧ settings.enabled = true ∧
          s.busy forest scope.lockKey = false := by
  unfold Holds at hholds ⊢
  rw [hclaims, Function.update_apply] at hholds
  split at hholds
  case isFalse => exact .inl hholds
  case isTrue heq =>
    subst heq
    cases hmoves with
    | locked hscoped henabled hfree =>
      cases hholds
      exact .inr ⟨rfl, hscoped, henabled, hfree⟩
    | unlimited => cases hholds
    | charged hclaim =>
      cases hholds
      rw [hclaim]
      exact .inl rfl
    | admitted hclaim =>
      cases hholds
      rw [hclaim]
      exact .inl rfl
    | ended => cases hholds

/-- When an admission is decided, no other Task of its scope or tree is admitted and not committed. -/
theorem Inv.alone {s : State} (h : Inv forest settings s) {task other : Id} {now now' startedAt tokens : Nat} {cost : ℚ}
    {scope scope' : Scope} (hclaim : s.claims task = some (.charged now scope startedAt tokens cost))
    (hbad : bad forest s (.decide task) = false) (hother : s.claims other = some (.admitted now' (some scope')))
    (hover : other ∈ scope.ids forest ∨ scope'.root = scope.root) : other = task := by
  have hholds : Holds s task scope := by
    unfold Holds
    rw [hclaim]
    rfl
  have hholds' : Holds s other scope' := by
    unfold Holds
    rw [hother]
    rfl
  obtain ⟨⟨row, -, hrow, -, -⟩, -⟩ := h.about other scope' hholds'
  obtain ⟨hmem, rfl⟩ := Forest.get?_eq_some.mp hrow
  by_contra hne
  have hsame : scope'.lockKey ≠ scope.lockKey := fun heq => hne (h.locks _ _ _ _ hholds' hholds heq)
  have hbad' : bad forest s (.decide task) = true := by
    unfold bad
    dsimp only
    rw [hclaim]
    refine List.any_eq_true.mpr ⟨row, hmem, ?_⟩
    rw [hother]
    simp [hne, hsame, hover]
  rw [hbad] at hbad'
  cases hbad'

theorem Inv.moves {s s' : State} {event : Event} {task : Id} {next : Option Claim} (h : Inv forest settings s)
    (hbad : bad forest s event = false) (hmoves : Moves forest settings s event task next)
    (hclock : s'.clock = s.clock) (hcalls : s'.calls = s.calls)
    (hclaims : s'.claims = Function.update s.claims task next) :
    Inv forest settings s' where
  clock other claim hclaim := by
    rw [hclock]
    rw [hclaims, Function.update_apply] at hclaim
    split at hclaim
    case isFalse => exact h.clock other claim hclaim
    case isTrue =>
      cases hmoves with
      | locked =>
        cases hclaim
        exact le_rfl
      | unlimited =>
        cases hclaim
        exact le_rfl
      | charged hbefore =>
        cases hclaim
        have hle := h.clock _ _ hbefore
        exact hle
      | admitted hbefore =>
        cases hclaim
        have hle := h.clock _ _ hbefore
        exact hle
      | ended => cases hclaim
  about other scope hholds := by
    obtain hbefore | ⟨rfl, hscoped, henabled, -⟩ := holds_of_moves hmoves hclaims hholds
    · exact h.about other scope hbefore
    · exact ⟨hscoped, henabled⟩
  unlimited other now hclaim := by
    rw [hclaims, Function.update_apply] at hclaim
    split at hclaim
    case isFalse => exact h.unlimited other now hclaim
    case isTrue =>
      cases hmoves with
      | unlimited henabled => exact henabled
      | locked => cases hclaim
      | charged => cases hclaim
      | admitted => cases hclaim
      | ended => cases hclaim
  locks one other scope scope' hone hother heq := by
    obtain hone | ⟨rfl, -, -, hfree⟩ := holds_of_moves hmoves hclaims hone
    · obtain hother | ⟨rfl, -, -, hfree⟩ := holds_of_moves hmoves hclaims hother
      · exact h.locks one other scope scope' hone hother heq
      · exact absurd heq (not_holds_of_free h hfree hone)
    · obtain hother | ⟨rfl, -, -, -⟩ := holds_of_moves hmoves hclaims hother
      · exact absurd heq.symm (not_holds_of_free h hfree hother)
      · rfl
  charged other now scope startedAt tokens cost hclaim := by
    rw [hcalls]
    rw [hclaims, Function.update_apply] at hclaim
    split at hclaim
    case isFalse => exact h.charged other now scope startedAt tokens cost hclaim
    case isTrue =>
      cases hmoves with
      | charged =>
        cases hclaim
        exact ⟨rfl, rfl⟩
      | locked => cases hclaim
      | unlimited => cases hclaim
      | admitted => cases hclaim
      | ended => cases hclaim
  apart one other now now' scope scope' hone hother hroot := by
    rw [hclaims, Function.update_apply] at hone hother
    split at hone
    case isTrue heq =>
      split at hother
      case isTrue heq' => exact heq.trans heq'.symm
      case isFalse =>
        cases hmoves with
        | admitted hcharged =>
          cases hone
          exact heq.trans (h.alone hcharged hbad hother (.inr hroot.symm)).symm
        | locked => cases hone
        | unlimited => cases hone
        | charged => cases hone
        | ended => cases hone
    case isFalse =>
      split at hother
      case isTrue heq' =>
        cases hmoves with
        | admitted hcharged =>
          cases hother
          exact (h.alone hcharged hbad hone (.inr hroot)).trans heq'.symm
        | locked => cases hother
        | unlimited => cases hother
        | charged => cases hother
        | ended => cases hother
      case isFalse => exact h.apart one other now now' scope scope' hone hother hroot

/-- A call that is recorded elsewhere does not count. -/
theorem used_append {calls : List Call} {call : Call} {ids : List Id} (h : call.task ∉ ids) :
    usedTokens (calls ++ [call]) ids = usedTokens calls ids ∧ usedCost (calls ++ [call]) ids = usedCost calls ids := by
  have hfilter : (calls ++ [call]).filter (fun call : Call => call.task ∈ ids) =
      calls.filter fun call : Call => call.task ∈ ids := by
    rw [List.filter_append, List.filter_cons_of_neg (by simpa using h), List.filter_nil, List.append_nil]
  unfold usedTokens usedCost
  rw [hfilter]
  exact ⟨rfl, rfl⟩

theorem Inv.step {s s' : State} {event : Event} (h : Inv forest settings s) (hbad : bad forest s event = false)
    (hstep : apply forest settings s event = some s') : Inv forest settings s' := by
  obtain ⟨hclaims, hclock, hcalls⟩ | ⟨hclock, hcalls, task, next, hclaims, hmoves⟩ := apply_cases hstep
  · have hholds : ∀ {task scope}, Holds s' task scope → Holds s task scope := by
      intro task scope hholds
      unfold Holds at hholds ⊢
      rw [hclaims] at hholds
      exact hholds
    refine ⟨fun task claim hclaim => (h.clock task claim (hclaims ▸ hclaim)).trans hclock,
      fun task scope hheld => h.about task scope (hholds hheld), fun task now hclaim =>
      h.unlimited task now (hclaims ▸ hclaim),
      fun task other scope scope' hone hother => h.locks task other scope scope' (hholds hone) (hholds hother),
      fun task now scope startedAt tokens cost hclaim => ?_, fun task other now now' scope scope' hone hother =>
        h.apart task other now now' scope scope' (hclaims ▸ hone) (hclaims ▸ hother)⟩
    rw [hclaims] at hclaim
    obtain ⟨htokens, hcost⟩ := h.charged task now scope startedAt tokens cost hclaim
    obtain hsame | ⟨call, rfl, hadded⟩ := hcalls
    · rw [hsame]
      exact ⟨htokens, hcost⟩
    · have helsewhere : call.task ∉ scope.ids forest := by
        intro hin
        have hheld : Holds s task scope := by
          unfold Holds
          rw [hclaim]
          rfl
        obtain ⟨⟨row, -, hrow, -, -⟩, -⟩ := h.about task scope hheld
        obtain ⟨hmem, rfl⟩ := Forest.get?_eq_some.mp hrow
        have hbad' : bad forest s (.record call) = true := by
          refine List.any_eq_true.mpr ⟨row, hmem, ?_⟩
          rw [hclaim]
          exact decide_eq_true hin
        rw [hbad] at hbad'
        cases hbad'
      obtain ⟨htokens', hcost'⟩ := @used_append s.calls call _ helsewhere
      rw [hadded, htokens', hcost']
      exact ⟨htokens, hcost⟩
  · exact h.moves hbad hmoves hclock hcalls hclaims

/-! ### The decision -/

/-- All but one are counted. -/
theorem length_filter_le {rows : List Row} (hids : (rows.map (·.id)).Nodup) {task : Id} {p q : Row → Bool}
    (h : ∀ row ∈ rows, p row = true → row.id = task ∨ q row = true) :
    (rows.filter p).length ≤ (rows.filter q).length + 1 := by
  have hmono : rows.countP p ≤ rows.countP fun row => decide (row.id = task) || q row := by
    refine List.countP_mono_left fun row hrow hp => ?_
    simpa using h row hrow hp
  have hone : rows.countP (fun row => decide (row.id = task)) ≤ 1 := by
    have hcount := List.nodup_iff_count_le_one.mp hids task
    rw [List.count_eq_countP, List.countP_map] at hcount
    exact hcount
  have hsplit : rows.countP (fun row => decide (row.id = task) || q row) ≤
      rows.countP (fun row => decide (row.id = task)) + rows.countP q := by
    clear h hmono hids hone
    induction rows with
    | nil => exact Nat.zero_le _
    | cons row rest ih =>
      rw [List.countP_cons, List.countP_cons, List.countP_cons]
      cases decide (row.id = task) <;> cases q row <;>
        simp only [Bool.or_self, Bool.or_true, Bool.true_or, if_true] <;> omega
  rw [← List.countP_eq_length_filter, ← List.countP_eq_length_filter]
  omega

/-- What an admission counts is all that is reserved, but its own lease. -/
theorem reserved_le {s : State} (h : Inv forest settings s) {task : Id} {now startedAt tokens : Nat}
    {cost : ℚ} {scope : Scope}
    (hclaim : s.claims task = some (.charged now scope startedAt tokens cost))
    (hbad : bad forest s (.decide task) = false) (next : Option Claim) :
    reserved forest (s.setClaim task next) (scope.ids forest) ≤ s.activeLeases forest
        (scope.ids forest) now task + 1 := by
  unfold reserved State.activeLeases
  refine @length_filter_le _ forest.ids task _ _ fun row hrow hreserved => ?_
  by_cases hown : row.id = task
  · exact .inl hown
  · refine .inr ?_
    obtain ⟨hin, hlive⟩ := Bool.and_eq_true_iff.mp hreserved
    have hclaims : (s.setClaim task next).claims row.id = s.claims row.id := Function.update_of_ne hown _ _
    rw [hclaims] at hlive
    obtain hlive | hadmitted := Bool.or_eq_true_iff.mp hlive
    · have hnow : now ≤ s.clock := h.clock _ _ hclaim
      have hlive' : live now (s.leases row.id) = true := by
        revert hlive
        show live s.clock (s.leases row.id) = true → _
        unfold live
        cases s.leases row.id with
        | none => exact nofun
        | some expires =>
          cases expires with
          | none => exact fun _ => rfl
          | some expires =>
            simp only [Option.any_some, Option.all_some, decide_eq_true_eq]
            omega
      rw [hin, hlive']
      simpa using hown
    · -- Another admission that is not committed has another lock, which is excluded.
      cases hother : s.claims row.id with
      | none =>
        rw [hother] at hadmitted
        cases hadmitted
      | some claim =>
        rw [hother] at hadmitted
        cases claim with
        | locked => cases hadmitted
        | charged => cases hadmitted
        | admitted now' scope' =>
          cases scope' with
          | some scope' => exact absurd (h.alone hclaim hbad hother (.inl (of_decide_eq_true hin))) hown
          | none =>
            have hheld : Holds s task scope := by
              unfold Holds
              rw [hclaim]
              rfl
            have henabled := (h.about task scope hheld).2
            rw [h.unlimited row.id now' hother] at henabled
            cases henabled

/-- The reservation that is made fits with all that is recorded and reserved. -/
theorem fits_of_admitted {s s' : State} (h : Inv forest settings s) {task : Id}
    (hbad : bad forest s (.decide task) = false)
    (hstep : apply forest settings s (.decide task) = some s') {now : Nat} {scope : Scope}
    (hadmitted : s'.claims task = some (.admitted now (some scope))) : Fits forest settings s' scope := by
  unfold apply at hstep
  dsimp only at hstep
  split at hstep
  case h_2 => cases hstep
  case h_1 now scope startedAt tokens cost hclaim =>
    split at hstep
    case h_1 message _ =>
      cases hstep
      have hnone : (s.refuse task message (now + 60)).claims task = none := Function.update_self _ _ _
      rw [hnone] at hadmitted
      cases hadmitted
    case h_2 hrefusal =>
      cases hstep
      have hnext : (s.setClaim task (some (.admitted now (some scope)))).claims task =
          some (.admitted now (some scope)) :=
        Function.update_self _ _ _
      rw [hnext] at hadmitted
      cases hadmitted
      obtain ⟨htokens, hcost⟩ := h.charged task now scope startedAt tokens cost hclaim
      have hle := reserved_le h hclaim hbad (some (.admitted now (some scope)))
      unfold refusal at hrefusal
      split at hrefusal
      case isTrue => cases hrefusal
      split at hrefusal
      case isTrue => cases hrefusal
      case isFalse hfits =>
        split at hrefusal
        case isTrue => cases hrefusal
        case isFalse hfits' =>
          constructor
          · intro hmax
            have hroom : tokens + (s.activeLeases forest (scope.ids forest) now task + 1) * settings.tokenReserve ≤
                settings.maxTokens := Nat.le_of_not_lt fun hless => hfits ⟨hmax, hless⟩
            show usedTokens s.calls (scope.ids forest) + _ ≤ _
            rw [← htokens]
            exact (Nat.add_le_add_left (Nat.mul_le_mul_right _ hle) _).trans hroom
          · intro hmax
            have hroom : cost + (s.activeLeases forest (scope.ids forest) now task + 1) * settings.costReserve ≤
                settings.maxCost := le_of_not_gt fun hless => hfits' ⟨hmax, hless⟩
            have hreserve : 0 ≤ settings.costReserve := le_min settings.reserveCost_pos.le settings.maxCost_nonneg
            have hcount : (reserved forest (s.setClaim task (some (.admitted now (some scope))))
                (scope.ids forest) : ℚ) ≤
                s.activeLeases forest (scope.ids forest) now task + 1 := by exact_mod_cast hle
            show usedCost s.calls (scope.ids forest) + _ ≤ _
            rw [← hcost]
            exact (add_le_add_right (mul_le_mul_of_nonneg_right hcount hreserve) _).trans hroom

/-- An admission gets an answer; it reports a cycle for a Task whose lineage comes back, and for no other. -/
theorem admit_spec {row : Row} (hmem : row ∈ forest.rows) (s : State) (capacity : Capacity) :
    (admitTask forest settings s row capacity).isSome = true ∧
      (capacity = .free → settings.enabled = true → forest.Revisits row →
        admitTask forest settings s row capacity = some (s.refuse row.id .cycle (s.clock + 60))) ∧
      (¬ forest.Revisits row → ∀ s', admitTask forest settings s row capacity = some s' →
        s'.lastError row.id = some .cycle → s.lastError row.id = some .cycle) := by
  obtain ⟨hsome, hcycle⟩ := Forest.root_spec hmem
  cases capacity with
  | full =>
    refine ⟨rfl, nofun, fun _ s' hs' herror => ?_⟩
    cases hs'
    have hother : (s.refuse row.id .userCapacity (s.clock + 5)).lastError row.id =
        some .userCapacity := Function.update_self _ _ _
    rw [hother] at herror
    cases herror
  | unknown =>
    refine ⟨rfl, nofun, fun _ s' hs' herror => ?_⟩
    cases hs'
    exact herror
  | free =>
    unfold admitTask
    dsimp only
    split
    case isFalse henabled =>
      refine ⟨rfl, fun _ h => absurd h henabled, fun _ s' hs' herror => ?_⟩
      cases hs'
      exact herror
    case isTrue =>
      split
      case h_1 hnone =>
        rw [hnone] at hsome
        cases hsome
      case h_2 hroot => exact ⟨rfl, fun _ _ _ => rfl, fun hnot => absurd (hcycle.mp hroot) hnot⟩
      case h_3 root hroot =>
        have hnot : ¬ forest.Revisits row := fun hrevisits => by
          rw [hcycle.mpr hrevisits] at hroot
          cases hroot
        split
        case isTrue =>
          refine ⟨rfl, fun _ _ h => absurd h hnot, fun _ s' hs' herror => ?_⟩
          cases hs'
          have hkept : (s.clear row.id [.userCapacity]).lastError row.id =
              (s.lastError row.id).filter fun error => error ∉ [Message.userCapacity] := Function.update_self _ _ _
          rw [hkept] at herror
          exact (Option.filter_eq_some_iff.mp herror).1
        case isFalse =>
          refine ⟨rfl, fun _ _ h => absurd h hnot, fun _ s' hs' herror => ?_⟩
          cases hs'
          exact herror

/-- In every run without such a race an admission fits, and no two of one tree are open; a cycle is reported as
it is; and where goals agree along the trees, or are not shared, only a call between the two reads is a race. -/
theorem budget_while_not_raced (forest : Forest) (settings : Settings) :
    (∀ start events s, (∀ task, start.claims task = none) →
      Steps (Guarded (Executes (apply forest settings)) fun s event => bad forest s event = false) start events s →
      (∀ task s' now scope, bad forest s (.decide task) = false → apply forest settings s (.decide task) = some s' →
        s'.claims task = some (.admitted now (some scope)) → Fits forest settings s' scope) ∧
      ∀ task other now now' scope scope', s.claims task = some (.admitted now (some scope)) →
        s.claims other = some (.admitted now' (some scope')) → scope.root = scope'.root → task = other) ∧
    (∀ row ∈ forest.rows, ∀ (s : State) (capacity : Capacity),
      (admitTask forest settings s row capacity).isSome = true ∧
        (capacity = .free → settings.enabled = true → forest.Revisits row →
          admitTask forest settings s row capacity = some (s.refuse row.id .cycle (s.clock + 60))) ∧
        (¬ forest.Revisits row → ∀ s', admitTask forest settings s row capacity = some s' →
          s'.lastError row.id = some .cycle → s.lastError row.id = some .cycle)) ∧
    (GoalsAgree forest settings → ∀ task other scope scope', Scoped forest settings task scope →
      Scoped forest settings other scope' → other ∈ scope.ids forest ∨ scope'.root = scope.root →
      scope'.lockKey = scope.lockKey) := by
  refine ⟨fun start events s hstart hrun => ?_, fun row hmem => admit_spec hmem,
    fun hagree task other scope scope' => lockKey_eq hagree⟩
  have hinv : Inv forest settings s := by
    refine hrun.invariant (P := Inv forest settings) (fun s event s' h hstep => ?_) (.start hstart)
    exact h.step hstep.1 hstep.2
  exact ⟨fun task s' now scope hbad hstep => fits_of_admitted hinv hbad hstep, hinv.apart⟩

/-! ### Races -/

/-- A Task without a goal, with a child that has one and a child that has none. -/
def twoGoals : Forest := ⟨[⟨1, none, none, none, 0⟩, ⟨2, some 1, none, some 9, 0⟩,
    ⟨3, some 1, none, none, 0⟩], by decide⟩

/-- Room for one reservation. -/
def roomForOne : Settings := ⟨1000, 0, 0, 600, 1, true, 60, le_rfl, one_pos⟩

/-- Nothing is claimed. -/
def idle : State := ⟨0, fun _ => none, [], fun _ => none, fun _ => none, fun _ => none⟩

/-- The decision admits the Task though the tokens of its scope do not suffice. -/
def overReserves (forest : Forest) (settings : Settings) (task : Id) (s : State) : Bool :=
  (apply forest settings s (.decide task)).any fun s' =>
    match s'.claims task with
    | some (.admitted _ (some scope)) => settings.maxTokens ≠ 0 &&
      settings.maxTokens < usedTokens s'.calls (scope.ids forest) + reserved forest s'
      (scope.ids forest) * settings.tokenReserve
    | _ => false

theorem not_fits_of_overReserves {start : State} {events : List Event} {task : Id}
    (h : (events.foldlM (apply forest settings) start).any (overReserves forest settings task) = true) :
    ∃ s s' now scope, Steps (Executes (apply forest settings)) start events s ∧
      apply forest settings s (.decide task) = some s' ∧ s'.claims task = some (.admitted now (some scope)) ∧
      ¬ Fits forest settings s' scope := by
  obtain ⟨s, hrun, hover⟩ := (Option.any_eq_true _ _).mp h
  obtain ⟨s', hstep, hover⟩ := (Option.any_eq_true _ _).mp hover
  split at hover
  case h_1 now scope hclaim =>
    refine ⟨s, s', now, scope, .of_foldlM hrun, hstep, hclaim, fun hfits => ?_⟩
    simp only [Bool.and_eq_true, decide_eq_true_eq] at hover
    exact absurd (hfits.1 hover.1) (Nat.not_le_of_lt hover.2)
  case h_2 => cases hover

/-- The child with a goal locks the goal, the other child the root: both are admitted. And within one tree a call
that is recorded between the two reads is not charged. -/
theorem admissions_over_reserve :
    (∃ s s' now scope, Steps (Executes (apply twoGoals roomForOne)) idle
        [.claim 2 .free, .charge 2, .decide 2, .claim 3 .free, .charge 3] s ∧
      apply twoGoals roomForOne s (.decide 3) = some s' ∧ s'.claims 3 = some (.admitted now (some scope)) ∧
      ¬ Fits twoGoals roomForOne s' scope) ∧
    ∃ s s' now scope, Steps (Executes (apply twoGoals roomForOne)) idle
        [.claim 3 .free, .charge 3, .record ⟨1, 900, 0⟩] s ∧
      apply twoGoals roomForOne s (.decide 3) = some s' ∧ s'.claims 3 = some (.admitted now (some scope)) ∧
      ¬ Fits twoGoals roomForOne s' scope :=
  ⟨not_fits_of_overReserves (by decide +kernel), not_fits_of_overReserves (by decide +kernel)⟩

end Galaris.Tasks.Budget
