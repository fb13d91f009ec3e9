import Galaris.Goal.CycleLedger

/-! The hierarchy of Goals.

An operation writes one Goal, or adds one; the Goals stay a forest (`Regoal.forest`), and a parent is accepted exactly
where they would (`Forest.assertParent_iff`). -/
namespace Galaris.Goals

open Transition Ancestry

section Runs
variable {s t u v : State}

/-! ### What an operation does to the Goals -/

/-- One Goal is written or is new, and what the hierarchy reads of it changes in the ways that are checked. -/
inductive Regoal (s : State) : List Goal → Prop
  | keeps : Regoal s s.goals
  | writes {held goal : Goal} : held ∈ s.goals → goal.id = held.id → held.revision < goal.revision →
    goal.deleted = held.deleted →
      (goal.parentGoalId = held.parentGoalId ∨ assertParent s held.id goal.parentGoalId = true) →
      Regoal s (putGoal goal s).goals
  | deletes {held goal : Goal} :
    held ∈ s.goals → goal.id = held.id → held.revision < goal.revision → goal.deleted = true →
      goal.parentGoalId = held.parentGoalId → childrenOf s held.id = [] → Regoal s (putGoal goal s).goals
  | adds {goal : Goal} : (∀ row ∈ s.goals, row.id ≠ goal.id) →
    (∀ parent, goal.parentGoalId = some parent → ∃ row ∈ s.goals, row.id = parent) →
      Regoal s (s.goals ++ [goal])

structure Forest (s : State) : Prop where
  ids : (s.goals.map (·.id)).Nodup
  parents : ∀ goal ∈ s.goals, ∀ parent, goal.parentGoalId = some parent → ∃ row ∈ s.goals, row.id = parent
  acyclic : Acyclic (up s)

theorem goal?_eq_some {id : GoalId} {goal : Goal} (h : goal? s id = some goal) :
    goal ∈ s.goals ∧ goal.id = id ∧ goal.deleted = false :=
  ⟨List.mem_of_find?_eq_some h, by simpa using List.find?_some h⟩

theorem goal?_isSome {id : GoalId} :
    (goal? s id).isSome = true ↔ ∃ goal ∈ s.goals, goal.id = id ∧ goal.deleted = false := by
  simp [goal?]

theorem Forest.eq_of_id (h : Forest s) {goal other : Goal} (hgoal : goal ∈ s.goals)
    (hother : other ∈ s.goals) (hid : goal.id = other.id) : goal = other :=
  List.inj_on_of_nodup_map h.ids hgoal hother hid

theorem Forest.goal? (h : Forest s) {goal : Goal} (hmem : goal ∈ s.goals)
    (hlive : goal.deleted = false) : goal? s goal.id = some goal := by
  obtain ⟨other, hfind⟩ := Option.isSome_iff_exists.mp (goal?_isSome.mpr ⟨goal, hmem, rfl, hlive⟩)
  obtain ⟨hother, hid, -⟩ := goal?_eq_some hfind
  rw [hfind, h.eq_of_id hother hmem hid]

theorem Forest.row? (h : Forest s) {goal : Goal} (hmem : goal ∈ s.goals) : row? s goal.id = some goal := by
  cases hfind : Goals.row? s goal.id with
  | none =>
    have hnone := List.find?_eq_none.mp hfind goal hmem
    simp at hnone
  | some other =>
    have hid : other.id = goal.id := by simpa using List.find?_some hfind
    rw [h.eq_of_id (List.mem_of_find?_eq_some hfind) hmem hid]

/-- The Goal is there and not deleted. -/
def Live (s : State) (id : GoalId) : Prop := ∃ row ∈ s.goals, row.id = id ∧ row.deleted = false

theorem up_eq_some {id parent : GoalId} (h : up s id = some parent) :
    (∃ goal ∈ s.goals, goal.id = id ∧ goal.deleted = false ∧ goal.parentGoalId = some parent) ∧ Live s parent := by
  simp only [up, Option.bind_eq_bind, Option.bind_eq_some_iff, Option.pure_def, Option.some.injEq] at h
  obtain ⟨goal, hgoal, above, habove, row, hrow, rfl⟩ := h
  obtain ⟨hmem, hid, hlive⟩ := goal?_eq_some hgoal
  obtain ⟨hrowMem, hparent, hrowLive⟩ := goal?_eq_some hrow
  exact ⟨⟨goal, hmem, hid, hlive, hparent ▸ habove⟩, row, hrowMem, rfl, hrowLive⟩

theorem Forest.up (h : Forest s) {goal : Goal} {parent : GoalId} (hmem : goal ∈ s.goals)
    (hlive : goal.deleted = false) (hparent : goal.parentGoalId = some parent)
    (habove : Live s parent) : up s goal.id = some parent := by
  obtain ⟨row, hrow, rfl, hrowLive⟩ := habove
  simp [Goals.up, h.goal? hmem hlive, hparent, h.goal? hrow hrowLive]

/-- A parent is accepted where it is there and the Goal is not at or above it. -/
theorem Forest.assertParent_iff (h : Forest s) {id : GoalId} {parent : Option GoalId} :
    assertParent s id parent = true ↔ ∀ p, parent = some p → Live s p ∧ ¬AtOrAbove (Goals.up s) p id := by
  cases parent with
  | none => exact iff_of_true rfl fun p hp => absurd hp.symm (Option.some_ne_none p)
  | some p =>
    have hplaces : ∀ a b, Goals.up s a = some b → b ∈ s.goals.map (·.id) := by
      intro a b hab
      obtain ⟨-, row, hrow, hid, -⟩ := up_eq_some hab
      exact List.mem_map.mpr ⟨row, hrow, hid⟩
    have hlong : (s.goals.map (·.id)).length < s.goals.length + 1 := by
      rw [List.length_map]
      exact Nat.lt_succ_self _
    have hspec : climbSeen (Goals.up s) (s.goals.length + 1) [id] p = some true ↔ ¬AtOrAbove (Goals.up s) p id := by
      obtain ⟨hends, hnot⟩ | ⟨hmeets, habove⟩ := climbSeen_spec h.acyclic hplaces hlong id p
      · exact iff_of_true hends hnot
      · exact iff_of_false (by rw [hmeets]; simp) (not_not_intro habove)
    simp only [assertParent, Bool.and_eq_true, bne_iff_ne, beq_iff_eq, hspec, goal?_isSome,
      Option.some.injEq, forall_eq']
    refine ⟨fun hall => ⟨hall.1.2, hall.2⟩, fun hboth => ⟨⟨?_, hboth.1⟩, hboth.2⟩⟩
    rintro rfl
    exact hboth.2 .refl

/-- What the hierarchy reads of a state whose rows are `goals`. -/
theorem up_congr (hgoals : t.goals = s.goals) : up t = up s := by
  have hread : Goals.goal? t = Goals.goal? s := funext fun id => congrArg (List.find? _) hgoals
  funext id
  rw [up, up, hread]

theorem Forest.congr (h : Forest s) (hgoals : t.goals = s.goals) : Forest t :=
  ⟨hgoals ▸ h.ids, hgoals ▸ h.parents, up_congr hgoals ▸ h.acyclic⟩

theorem map_put_ids (goal : Goal) : (putGoal goal s).goals.map (·.id) = s.goals.map (·.id) := by
  rw [putGoal, List.map_map]
  refine List.map_congr_left fun row _ => ?_
  rw [Function.comp_apply]
  split
  case isTrue hsame => exact hsame.symm
  case isFalse => rfl

theorem mem_put {held goal row : Goal} (hheld : held ∈ s.goals) (hid : goal.id = held.id) :
    row ∈ (putGoal goal s).goals ↔ row = goal ∨ row ∈ s.goals ∧ row.id ≠ held.id := by
  rw [putGoal, List.mem_map]
  constructor
  · rintro ⟨old, hold, rfl⟩
    split
    case isTrue => exact .inl rfl
    case isFalse hother => exact .inr ⟨hold, fun hsame => hother (hsame.trans hid.symm)⟩
  · rintro (rfl | ⟨hrow, hother⟩)
    · exact ⟨held, hheld, if_pos hid.symm⟩
    · exact ⟨row, hrow, if_neg fun hsame => hother (hsame.trans hid)⟩

theorem live_put {held goal : Goal} (hheld : held ∈ s.goals) (hid : goal.id = held.id)
    (hlive : goal.deleted = false → held.deleted = false) {id : GoalId}
    (h : Live (putGoal goal s) id) : Live s id := by
  obtain ⟨row, hrow, rfl, hrowLive⟩ := h
  obtain rfl | ⟨hold, -⟩ := (mem_put hheld hid).mp hrow
  · exact ⟨held, hheld, hid.symm, hlive hrowLive⟩
  · exact ⟨row, hold, rfl, hrowLive⟩

/-- A Goal is written in its place, with the parent that it has or with one that is accepted. -/
theorem Forest.put (h : Forest s) {held goal : Goal} (hheld : held ∈ s.goals)
    (hid : goal.id = held.id) (hlive : goal.deleted = false → held.deleted = false)
    (hparent : goal.parentGoalId = held.parentGoalId ∨
      assertParent s held.id goal.parentGoalId = true) : Forest (putGoal goal s) := by
  have hrows : ∀ id, (∃ row ∈ s.goals, row.id = id) → ∃ row ∈ (putGoal goal s).goals, row.id = id := fun id hold => by
    have hids := map_put_ids (s := s) goal
    rw [← List.mem_map, hids, List.mem_map]
    exact hold
  refine ⟨(map_put_ids goal).symm ▸ h.ids, fun row hrow parent hunder => hrows parent ?_, ?_⟩
  · obtain rfl | ⟨hold, -⟩ := (mem_put hheld hid).mp hrow
    · obtain hsame | haccepted := hparent
      · exact h.parents held hheld parent (hsame ▸ hunder)
      · obtain ⟨⟨above, habove, hisParent, -⟩, -⟩ := h.assertParent_iff.mp haccepted parent hunder
        exact ⟨above, habove, hisParent⟩
    · exact h.parents row hold parent hunder
  by_cases haccepted : assertParent s held.id goal.parentGoalId = true
  · refine h.acyclic.move held.id goal.parentGoalId
      (fun r hr => (h.assertParent_iff.mp haccepted r hr).2) fun a b hab => ?_
    obtain ⟨⟨row, hrow, rfl, hrowLive, hunder⟩, habove⟩ := up_eq_some hab
    obtain rfl | ⟨hold, hother⟩ := (mem_put hheld hid).mp hrow
    · exact .inr ⟨hid, hunder⟩
    · exact .inl ⟨h.up hold hrowLive hunder (live_put hheld hid hlive habove), hother⟩
  · refine h.acyclic.mono fun a b hab => ?_
    obtain ⟨⟨row, hrow, rfl, hrowLive, hunder⟩, habove⟩ := up_eq_some hab
    have haboveOld := live_put hheld hid hlive habove
    obtain rfl | ⟨hold, -⟩ := (mem_put hheld hid).mp hrow
    · have hsame := hparent.resolve_right haccepted
      exact hid.symm ▸ h.up hheld (hlive hrowLive) (hsame ▸ hunder) haboveOld
    · exact h.up hold hrowLive hunder haboveOld

/-- A new Goal has nothing under it, so that it may hang anywhere. -/
theorem Forest.add (h : Forest s) {goal : Goal} (hfresh : ∀ row ∈ s.goals, row.id ≠ goal.id)
    (hknown : ∀ parent, goal.parentGoalId = some parent → ∃ row ∈ s.goals, row.id = parent) :
    Forest {s with goals := s.goals ++ [goal]} := by
  have hmem : ∀ row, row ∈ s.goals ++ [goal] ↔ row ∈ s.goals ∨ row = goal :=
      fun row => by rw [List.mem_append, List.mem_singleton]
  have hrows : ∀ row ∈ s.goals ++ [goal], ∀ parent, row.parentGoalId = some parent →
      ∃ above ∈ s.goals, above.id = parent := by
    intro row hrow
    obtain hold | rfl := (hmem row).mp hrow
    · exact h.parents row hold
    · exact hknown
  have hunder : ∀ r, goal.parentGoalId = some r → ¬AtOrAbove (Goals.up s) r goal.id := fun r hr hway => by
    obtain rfl | ⟨b, -, hb⟩ := Relation.ReflTransGen.cases_tail hway
    · obtain ⟨row, hrow, hid⟩ := hknown _ hr
      exact hfresh row hrow hid
    · obtain ⟨-, row, hrow, hid, -⟩ := up_eq_some hb
      exact hfresh row hrow hid
  refine ⟨?_, fun row hrow parent hparent => ?_, h.acyclic.move goal.id goal.parentGoalId hunder fun a b hab => ?_⟩
  · show ((s.goals ++ [goal]).map _).Nodup
    rw [List.map_append, List.nodup_append]
    refine ⟨h.ids, List.nodup_singleton _, ?_⟩
    simpa using hfresh
  · obtain ⟨above, habove, hid⟩ := hrows row hrow parent hparent
    exact ⟨above, (hmem above).mpr (.inl habove), hid⟩
  · obtain ⟨⟨row, hrow, rfl, hrowLive, hparent⟩, above, habove, rfl, haboveLive⟩ := up_eq_some hab
    obtain hold | rfl := (hmem row).mp hrow
    · obtain haboveOld | rfl := (hmem above).mp habove
      · exact .inl ⟨h.up hold hrowLive hparent ⟨above, haboveOld, rfl, haboveLive⟩, hfresh row hold⟩
      · obtain ⟨old, hold, hid⟩ := hrows row hrow _ hparent
        exact absurd hid (hfresh old hold)
    · exact .inr ⟨rfl, hparent⟩

theorem Regoal.forest {goals : List Goal} (h : Regoal s goals) (hs : Forest s)
    (hgoals : t.goals = goals) : Forest t := by
  cases h with
  | keeps => exact hs.congr hgoals
  | @writes held goal hheld hid _ hdeleted hparent =>
    exact (hs.put hheld hid (fun hlive => hdeleted ▸ hlive) hparent).congr hgoals
  | @deletes held goal hheld hid _ hdeleted hparent =>
    have hno : goal.deleted ≠ false := by simp [hdeleted]
    exact (hs.put hheld hid (absurd · hno) (.inl hparent)).congr hgoals
  | @adds goal hfresh hknown => exact (hs.add hfresh hknown).congr hgoals

end Runs
end Galaris.Goals
