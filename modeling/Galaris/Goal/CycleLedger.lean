import Galaris.Goal.Cycles
import Mathlib.Data.List.Nodup
import Mathlib.Data.List.Range

/-! The ledger of cycles.

Whatever an operation does to cycles, wake-ups and Tasks is one of six moves (`Move`), and each of them keeps the
ledger in order (`Move.inv`). -/
namespace Galaris.Goals

open Transition Ancestry

section Runs
variable {s t u v : State}

/-! ### What an operation does to the cycles -/

/-- The columns of a cycle that are written once. -/
structure Same (cycle cycle' : Cycle) : Prop where
  id : cycle'.id = cycle.id
  goalId : cycle'.goalId = cycle.goalId
  sequence : cycle'.sequence = cycle.sequence
  triggerKind : cycle'.triggerKind = cycle.triggerKind
  sourceCycleId : cycle'.sourceCycleId = cycle.sourceCycleId
  taskId : cycle'.taskId = cycle.taskId

/-- A cycle that is not written keeps what the ledger tells of it. -/
theorem Same.refl (cycle : Cycle) : Same cycle cycle := ⟨rfl, rfl, rfl, rfl, rfl, rfl⟩

/-- A cycle without a verdict becomes `cycle'`. -/
structure Rewrites (s : State) (cycle cycle' : Cycle) : Prop where
  mem : cycle ∈ s.cycles
  opened : cycle.verdict = none
  same : Same cycle cycle'

/-- What one operation does to cycles, wake-ups and Tasks, whatever the Goals are after it. -/
inductive Move (s : State) : State → Prop
  | keeps (goals drafts : List Goal) : Move s {s with goals, drafts}
  | task (goals : List Goal) {f : Task → Task} : (∀ task, (f task).id = task.id ∧ (f task).retained = task.retained) →
      Move s {s with goals, tasks := s.tasks.map f}
  | revises (goals : List Goal) {cycle cycle' : Cycle} :
    Rewrites s cycle cycle' → cycle'.verdict = none → cycle'.status ≠ .decided →
      (cycle'.leaseToken = cycle.leaseToken ∨ cycle'.leaseToken = none) → Move s {putCycle cycle' s with goals}
  | claims (goals : List Goal) {cycle cycle' : Cycle} {token : Token} :
    Rewrites s cycle cycle' → cycle'.verdict = none → cycle'.status ≠ .decided →
      cycle'.leaseToken = some token → token ∉ s.issued →
        Move s {putCycle cycle' s with goals, issued := token :: s.issued}
  | settles (goals : List Goal) {cycle cycle' : Cycle} (draw : GoalId → Nat) (now : Int) :
    Rewrites s cycle cycle' → cycle'.verdict ≠ none →
      cycle'.status = .decided → cycle'.leaseToken = none → Move s {settle cycle' draw now s with goals}
  | opens (goals : List Goal) {goalId : GoalId} {kind : TriggerKind} {trigger : Option Trigger}
    {cycleId : CycleId} {taskId : TaskId} :
      hasOpenCycle s goalId = false → (∀ cycle ∈ s.cycles, cycle.id ≠ cycleId) → (∀ task ∈ s.tasks, task.id ≠ taskId) →
      (∀ row, trigger = some row → row ∈ s.triggers ∧ row.goalId = goalId ∧
        row.consumedCycleId = none) → (kind = .relational ↔ trigger.isSome = true) →
      Move s {opened s goalId kind trigger cycleId taskId with goals}

/-- The ledger of cycles does not depend on the Goals. -/
theorem Move.regoal (h : Move s t) (goals : List Goal) : Move s {t with goals} := by
  cases h with
  | keeps _ drafts => exact .keeps goals drafts
  | task _ hf => exact .task goals hf
  | revises _ hcycle hopen hstatus hlease => exact .revises goals hcycle hopen hstatus hlease
  | claims _ hcycle hopen hstatus hlease hfresh => exact .claims goals hcycle hopen hstatus hlease hfresh
  | settles _ draw now hcycle hverdict hstatus hlease => exact .settles goals draw now hcycle hverdict hstatus hlease
  | opens _ hclosed hcycle htask htrigger hkind => exact .opens goals hclosed hcycle htask htrigger hkind

structure Inv (s : State) : Prop where
  ids : (s.cycles.map (·.id)).Nodup
  sequences : ∀ goalId, (cyclesOf s goalId).map (·.sequence) = List.range' 1 (cyclesOf s goalId).length
  /-- A cycle without a verdict is the last of its Goal. -/
  last : ∀ cycle ∈ s.cycles, cycle.verdict = none → cycle.sequence = (cyclesOf s cycle.goalId).length
  decided : ∀ cycle ∈ s.cycles, cycle.status = .decided ↔ cycle.verdict ≠ none
  taskIds : (s.cycles.map (·.taskId)).Nodup
  tasks : (s.tasks.map (·.id)).Nodup
  retained : ∀ cycle ∈ s.cycles, ∃ task ∈ s.tasks, task.id = cycle.taskId ∧
    (task.retained = true ↔ cycle.verdict = none)
  tokens : ∀ cycle ∈ s.cycles, ∀ token, cycle.leaseToken = some token → cycle.verdict = none ∧ token ∈ s.issued
  sources : (s.triggers.map fun trigger => (trigger.goalId, trigger.sourceCycleId)).Nodup
  woken : ∀ trigger ∈ s.triggers, ∃ cycle ∈ s.cycles, cycle.id = trigger.sourceCycleId ∧ cycle.verdict ≠ none
  consumed : ∀ trigger ∈ s.triggers, ∀ cycleId, trigger.consumedCycleId = some cycleId →
    ∃ cycle ∈ s.cycles, cycle.id = cycleId ∧
    cycle.goalId = trigger.goalId ∧ cycle.triggerKind = .relational ∧ cycle.sourceCycleId = some trigger.sourceCycleId
  relational : ∀ cycle ∈ s.cycles, cycle.triggerKind = .relational → ∃ trigger ∈ s.triggers,
    trigger.goalId = cycle.goalId ∧
    cycle.sourceCycleId = some trigger.sourceCycleId ∧ trigger.consumedCycleId = some cycle.id

/-- A cycle is known by its identifier. -/
theorem Inv.eq_of_id (h : Inv s) {cycle other : Cycle} (hcycle : cycle ∈ s.cycles)
    (hother : other ∈ s.cycles) (hid : cycle.id = other.id) :
    cycle = other := List.inj_on_of_nodup_map h.ids hcycle hother hid

theorem cycle?_eq_some {id : CycleId} {cycle : Cycle} (h : cycle? s id = some cycle) :
    cycle ∈ s.cycles ∧ cycle.id = id :=
  ⟨List.mem_of_find?_eq_some h, by simpa using List.find?_some h⟩

/-! What a cycle becomes, in its place. -/

/-- Every row but that of `cycle` stays, and `cycle` becomes `cycle'`. -/
theorem Rewrites.row (hs : Inv s) {cycle cycle' : Cycle} (h : Rewrites s cycle cycle') {row : Cycle}
    (hrow : row ∈ s.cycles) :
    row = cycle ∧ (if row.id = cycle'.id then cycle' else row) = cycle' ∨ row.id ≠ cycle.id ∧
        (if row.id = cycle'.id then cycle' else row) = row := by
  rw [h.same.id]
  by_cases hid : row.id = cycle.id
  · exact .inl ⟨hs.eq_of_id hrow h.mem hid, if_pos hid⟩
  · exact .inr ⟨hid, if_neg hid⟩

/-- Writing one cycle keeps what the ledger tells of all of them. -/
theorem Rewrites.rowSame (hs : Inv s) {cycle cycle' : Cycle} (h : Rewrites s cycle cycle')
    {row : Cycle} (hrow : row ∈ s.cycles) :
    Same row (if row.id = cycle'.id then cycle' else row) := by
  obtain ⟨rfl, hnew⟩ | ⟨-, hkept⟩ := h.row hs hrow
  · rw [hnew]
    exact h.same
  · rw [hkept]
    exact .refl row

/-- The new row has the place of the old one; the others are as they were. -/
theorem Rewrites.mem_iff (hs : Inv s) {cycle cycle' : Cycle} (h : Rewrites s cycle cycle') {row : Cycle} :
    row ∈ (putCycle cycle' s).cycles ↔ row = cycle' ∨ row ∈ s.cycles ∧ row.id ≠ cycle.id := by
  rw [putCycle, List.mem_map]
  constructor
  · rintro ⟨old, hold, rfl⟩
    obtain ⟨rfl, hnew⟩ | ⟨hid, hkept⟩ := h.row hs hold
    · exact .inl hnew
    · rw [hkept]
      exact .inr ⟨hold, hid⟩
  · rintro (rfl | ⟨hmem, hid⟩)
    · exact ⟨cycle, h.mem, if_pos h.same.id.symm⟩
    · exact ⟨row, hmem, if_neg fun hsame => hid (hsame.trans h.same.id)⟩

/-- Whatever is read of that is as before a cycle is written. -/
theorem Rewrites.map_eq (hs : Inv s) {cycle cycle' : Cycle} (h : Rewrites s cycle cycle') {α : Type} {f : Cycle → α}
    (hf : ∀ row row', Same row row' → f row' = f row) : (putCycle cycle' s).cycles.map f = s.cycles.map f := by
  rw [putCycle, List.map_map]
  exact List.map_congr_left fun row hrow => hf _ _ (h.rowSame hs hrow)

/-- The cycles of a Goal are still in their order. -/
theorem Rewrites.cyclesOf (hs : Inv s) {cycle cycle' : Cycle} (h : Rewrites s cycle cycle') (goalId : GoalId) :
    cyclesOf (putCycle cycle' s) goalId = (cyclesOf s goalId).map fun row =>
        if row.id = cycle'.id then cycle' else row := by
  rw [Goals.cyclesOf, putCycle, List.filter_map]
  refine congrArg (List.map _) (List.filter_congr fun row hrow => ?_)
  rw [Function.comp_apply, (h.rowSame hs hrow).goalId]

/-- The parts of the invariant that only read what a rewritten cycle keeps. -/
theorem Inv.rewrite (hs : Inv s) {cycle cycle' : Cycle} (h : Rewrites s cycle cycle')
    (hstatus : cycle'.status = .decided ↔ cycle'.verdict ≠ none)
    {goals : List Goal} {tasks : List Task} {triggers : List Trigger} {issued : List Token}
    (htasks : (tasks.map (·.id)).Nodup)
    (hretained : ∀ row ∈ (putCycle cycle' s).cycles, ∃ task ∈ tasks, task.id = row.taskId ∧
      (task.retained = true ↔ row.verdict = none))
    (htokens : ∀ token, cycle'.leaseToken = some token → cycle'.verdict = none ∧ token ∈ issued)
      (hissued : s.issued ⊆ issued)
    (hsources : (triggers.map fun trigger => (trigger.goalId, trigger.sourceCycleId)).Nodup)
      (hsub : s.triggers ⊆ triggers)
    (hnew : ∀ trigger ∈ triggers, trigger ∈ s.triggers ∨ trigger.sourceCycleId = cycle'.id ∧
      cycle'.verdict ≠ none ∧ trigger.consumedCycleId = none) :
    Inv {putCycle cycle' s with goals, tasks, triggers, issued} := by
  have hcycle' : cycle' ∈ (putCycle cycle' s).cycles := (h.mem_iff hs).mpr (.inl rfl)
  have hexists : ∀ row ∈ s.cycles, ∃ row' ∈ (putCycle cycle' s).cycles, Same row row' ∧
      (row.verdict ≠ none → row' = row) := by
    intro row hrow
    by_cases hid : row.id = cycle.id
    · obtain rfl := hs.eq_of_id hrow h.mem hid
      exact ⟨cycle', hcycle', h.same, fun hverdict => absurd h.opened hverdict⟩
    · exact ⟨row, (h.mem_iff hs).mpr (.inr ⟨hrow, hid⟩), .refl row, fun _ => rfl⟩
  refine ⟨?_, fun goalId => ?_, fun row hrow hopen => ?_, fun row hrow => ?_, ?_, htasks, hretained,
    fun row hrow token htoken => ?_, hsources,
    fun trigger htrigger => ?_, fun trigger htrigger cycleId hcycleId => ?_, fun row hrow hkind => ?_⟩
  · exact (h.map_eq hs fun _ _ hsame => hsame.id) ▸ hs.ids
  · show (Goals.cyclesOf (putCycle cycle' s) goalId).map _ = List.range' 1
        (Goals.cyclesOf (putCycle cycle' s) goalId).length
    rw [h.cyclesOf hs, List.length_map, List.map_map, ← hs.sequences]
    exact List.map_congr_left fun row hrow => (h.rowSame hs (List.mem_of_mem_filter hrow)).sequence
  · show row.sequence = (Goals.cyclesOf (putCycle cycle' s) row.goalId).length
    rw [h.cyclesOf hs, List.length_map]
    obtain rfl | ⟨hold, -⟩ := (h.mem_iff hs).mp hrow
    · rw [h.same.sequence, h.same.goalId]
      exact hs.last cycle h.mem h.opened
    · exact hs.last row hold hopen
  · obtain rfl | ⟨hold, -⟩ := (h.mem_iff hs).mp hrow
    · exact hstatus
    · exact hs.decided row hold
  · exact (h.map_eq hs fun _ _ hsame => hsame.taskId) ▸ hs.taskIds
  · obtain rfl | ⟨hold, -⟩ := (h.mem_iff hs).mp hrow
    · exact htokens token htoken
    · exact (hs.tokens row hold token htoken).imp_right (@hissued token)
  · obtain hold | ⟨hsource, hverdict, -⟩ := hnew trigger htrigger
    · obtain ⟨source, hsource, hid, hverdict⟩ := hs.woken trigger hold
      obtain ⟨row', hrow', hsame, hkept⟩ := hexists source hsource
      exact ⟨row', hrow', hsame.id.trans hid, hkept hverdict ▸ hverdict⟩
    · exact ⟨cycle', hcycle', hsource.symm, hverdict⟩
  · obtain hold | ⟨-, -, hnone⟩ := hnew trigger htrigger
    · obtain ⟨row, hrow, hid, hgoal, hkind, hsource⟩ := hs.consumed trigger hold cycleId hcycleId
      obtain ⟨row', hrow', hsame, -⟩ := hexists row hrow
      exact ⟨row', hrow', hsame.id.trans hid, hsame.goalId.trans hgoal,
        hsame.triggerKind.trans hkind, hsame.sourceCycleId.trans hsource⟩
    · rw [hnone] at hcycleId
      cases hcycleId
  · have hold : ∃ old ∈ s.cycles, Same old row := by
      obtain rfl | ⟨hold, -⟩ := (h.mem_iff hs).mp hrow
      · exact ⟨cycle, h.mem, h.same⟩
      · exact ⟨row, hold, .refl row⟩
    obtain ⟨old, hold, hsame⟩ := hold
    obtain ⟨trigger, htrigger, hgoal, hsource, hconsumed⟩ := hs.relational old hold (hsame.triggerKind ▸ hkind)
    exact ⟨trigger, hsub htrigger, hgoal.trans hsame.goalId.symm, hsame.sourceCycleId.trans hsource,
      hconsumed.trans (congrArg some hsame.id.symm)⟩

theorem Inv.regoal (hs : Inv s) (goals drafts : List Goal) : Inv {s with goals, drafts} :=
  ⟨hs.ids, hs.sequences, hs.last, hs.decided, hs.taskIds, hs.tasks, hs.retained, hs.tokens,
    hs.sources, hs.woken, hs.consumed, hs.relational⟩

/-- The Tasks of the cycles are as they were, but that of a cycle that is rewritten without a verdict. -/
theorem Inv.retained_revised (hs : Inv s) {cycle cycle' : Cycle} (h : Rewrites s cycle cycle')
    (hopen : cycle'.verdict = none) :
    ∀ row ∈ (putCycle cycle' s).cycles, ∃ task ∈ s.tasks, task.id = row.taskId ∧
    (task.retained = true ↔ row.verdict = none) := by
  intro row hrow
  obtain rfl | ⟨hold, -⟩ := (h.mem_iff hs).mp hrow
  · obtain ⟨task, htask, hid, hretained⟩ := hs.retained cycle h.mem
    exact ⟨task, htask, hid.trans h.same.taskId.symm, by rw [hretained, h.opened, hopen]⟩
  · exact hs.retained row hold

/-- Only the Task of the cycle that gets its verdict is released. -/
theorem Inv.retained_settled (hs : Inv s) {cycle cycle' : Cycle} (h : Rewrites s cycle cycle')
    (hverdict : cycle'.verdict ≠ none) :
    ∀ row ∈ (putCycle cycle' s).cycles, ∃ task ∈ (releaseRetention cycle'.taskId s).tasks,
    task.id = row.taskId ∧ (task.retained = true ↔ row.verdict = none) := by
  have hreleased : ∀ task ∈ s.tasks, (if task.id = cycle'.taskId then {task with retained := false}
      else task) ∈ (releaseRetention cycle'.taskId s).tasks :=
    fun task htask => List.mem_map_of_mem htask
  intro row hrow
  obtain rfl | ⟨hold, hother⟩ := (h.mem_iff hs).mp hrow
  · obtain ⟨task, htask, hid, -⟩ := hs.retained cycle h.mem
    have hmem := hreleased task htask
    rw [if_pos (hid.trans h.same.taskId.symm)] at hmem
    exact ⟨_, hmem, hid.trans h.same.taskId.symm, by simp [hverdict]⟩
  · obtain ⟨task, htask, hid, hretained⟩ := hs.retained row hold
    have hmem := hreleased task htask
    have hapart : task.id ≠ cycle'.taskId := by
      rw [hid, h.same.taskId]
      exact fun hsame => hother (congrArg Cycle.id (List.inj_on_of_nodup_map hs.taskIds hold h.mem hsame))
    rw [if_neg hapart] at hmem
    exact ⟨task, hmem, hid, hretained⟩

theorem nodup_childrenOf (hgoals : (s.goals.map (·.id)).Nodup) (goalId : GoalId) : (childrenOf s goalId).Nodup :=
  hgoals.sublist (List.filter_sublist.map _)

/-- No child is woken twice by one cycle. -/
theorem Inv.sources_settled (hs : Inv s) (hgoals : (s.goals.map (·.id)).Nodup) (cycle : Cycle)
    (draw : GoalId → Nat) (now : Int) :
    ((settle cycle draw now s).triggers.map fun trigger => (trigger.goalId, trigger.sourceCycleId)).Nodup := by
  show ((s.triggers ++ _).map _).Nodup
  rw [List.map_append, List.map_map, List.nodup_append]
  refine ⟨hs.sources, ?_, ?_⟩
  · refine List.Nodup.map_on (fun child _ child' _ hsame => congrArg Prod.fst hsame) ?_
    exact (nodup_childrenOf hgoals cycle.goalId).filter _
  · rintro pair hold _ hnew rfl
    obtain ⟨trigger, htrigger, heq⟩ := List.mem_map.mp hold
    obtain ⟨child, hchild, rfl⟩ := List.mem_map.mp hnew
    have hnone := (List.mem_filter.mp hchild).2
    rw [Bool.not_eq_true', List.any_eq_false] at hnone
    refine hnone trigger htrigger ?_
    simpa using Prod.mk.inj heq

/-- The last cycle has the number of cycles as its number. -/
theorem Inv.lastCycle (hs : Inv s) (goalId : GoalId) :
    (lastCycle s goalId).elim 0 (·.sequence) = (cyclesOf s goalId).length := by
  have hmem : ∀ n, n ∈ (cyclesOf s goalId).map (·.sequence) ↔ 1 ≤ n ∧ n < 1 + (cyclesOf s goalId).length := fun n => by
    rw [hs.sequences, List.mem_range'_1]
  cases hlast : Goals.lastCycle s goalId with
  | none =>
    rw [Goals.lastCycle, List.argmax_eq_none] at hlast
    rw [hlast]
    rfl
  | some cycle =>
    have hcycle : cycle ∈ cyclesOf s goalId := List.argmax_mem hlast
    have hpos := List.length_pos_of_mem hcycle
    have hle := (hmem cycle.sequence).mp (List.mem_map_of_mem hcycle)
    obtain ⟨top, htop, htopSequence⟩ := List.mem_map.mp ((hmem (cyclesOf s goalId).length).mpr (by omega))
    have hge : top.sequence ≤ cycle.sequence := List.le_of_mem_argmax htop hlast
    show cycle.sequence = _
    omega

/-- Of the wake-ups only `trigger` is changed. -/
theorem Inv.mem_consume (hs : Inv s) {trigger row : Trigger} {cycleId : CycleId} (htrigger : trigger ∈ s.triggers) :
    row ∈ consume trigger cycleId s.triggers ↔ row ∈ s.triggers ∧ row ≠ trigger ∨
        row = {trigger with consumedCycleId := some cycleId} := by
  have hunique : ∀ old ∈ s.triggers, old.goalId = trigger.goalId ∧
      old.sourceCycleId = trigger.sourceCycleId ↔ old = trigger := fun old hold =>
    ⟨fun hsame => List.inj_on_of_nodup_map hs.sources hold htrigger (Prod.ext hsame.1 hsame.2),
      fun hsame => hsame ▸ ⟨rfl, rfl⟩⟩
  rw [consume, List.mem_map]
  constructor
  · rintro ⟨old, hold, rfl⟩
    by_cases hsame : old = trigger
    · rw [if_pos ((hunique old hold).mpr hsame), hsame]
      exact .inr rfl
    · rw [if_neg (mt (hunique old hold).mp hsame)]
      exact .inl ⟨hold, hsame⟩
  · rintro (⟨hold, hother⟩ | rfl)
    · exact ⟨row, hold, if_neg (mt (hunique row hold).mp hother)⟩
    · exact ⟨trigger, htrigger, if_pos ⟨rfl, rfl⟩⟩

/-- A wake-up that is consumed keeps its Goal and its source. -/
theorem consume_sources (trigger : Trigger) (cycleId : CycleId) (rows : List Trigger) :
    ((consume trigger cycleId rows).map fun row => (row.goalId, row.sourceCycleId)) =
    rows.map fun row => (row.goalId, row.sourceCycleId) := by
  rw [consume, List.map_map]
  refine List.map_congr_left fun row _ => ?_
  rw [Function.comp_apply]
  split <;> rfl

theorem cyclesOf_opened (s : State) (goalId : GoalId) (kind : TriggerKind)
    (trigger : Option Trigger) (cycleId : CycleId) (taskId : TaskId) :
    ∃ cycle : Cycle, (opened s goalId kind trigger cycleId taskId).cycles = s.cycles ++ [cycle] ∧
    cycle.id = cycleId ∧ cycle.goalId = goalId ∧
      cycle.sequence = (Goals.lastCycle s goalId).elim 0 (·.sequence) + 1 ∧
      cycle.triggerKind = kind ∧ cycle.sourceCycleId = trigger.map (·.sourceCycleId) ∧
      cycle.taskId = taskId ∧ cycle.status = .running ∧ cycle.verdict = none ∧ cycle.leaseToken = none :=
  ⟨_, rfl, rfl, rfl, rfl, rfl, rfl, rfl, rfl, rfl, rfl⟩

/-- A Goal without open cycle has a verdict on each of them. -/
theorem not_open_of_hasOpenCycle {goalId : GoalId} (h : hasOpenCycle s goalId = false)
    {cycle : Cycle} (hcycle : cycle ∈ s.cycles)
    (hgoal : cycle.goalId = goalId) : cycle.verdict ≠ none := by
  rw [hasOpenCycle, List.any_eq_false] at h
  simpa using h cycle (List.mem_filter.mpr ⟨hcycle, decide_eq_true hgoal⟩)

/-- A cycle begins where its Goal has none open, and takes the wake-up that starts it. -/
theorem Inv.open (hs : Inv s) {goalId : GoalId} {kind : TriggerKind} {trigger : Option Trigger}
    {cycleId : CycleId} {taskId : TaskId}
    (hclosed : hasOpenCycle s goalId = false) (hcycleId : ∀ cycle ∈ s.cycles, cycle.id ≠ cycleId)
    (htaskId : ∀ task ∈ s.tasks, task.id ≠ taskId)
    (htrigger : ∀ row, trigger = some row → row ∈ s.triggers ∧ row.goalId = goalId ∧ row.consumedCycleId = none)
    (hkind : kind = .relational ↔ trigger.isSome = true) : Inv (opened s goalId kind trigger cycleId taskId) := by
  obtain ⟨new, hcycles, hid, hgoal, hsequence, hnewKind, hsource, htask, hstatus, hverdict,
    hlease⟩ := cyclesOf_opened s goalId kind trigger cycleId taskId
  have hmem : ∀ row, row ∈ (opened s goalId kind trigger cycleId taskId).cycles ↔ row ∈ s.cycles ∨
      row = new := fun row => by
    rw [hcycles, List.mem_append, List.mem_singleton]
  have hcyclesOf : ∀ other, cyclesOf (opened s goalId kind trigger cycleId taskId) other =
      if other = goalId then cyclesOf s other ++ [new] else cyclesOf s other := by
    intro other
    rw [cyclesOf, hcycles, List.filter_append, List.filter_singleton, hgoal]
    by_cases hsame : other = goalId
    · subst hsame
      simp [cyclesOf]
    · simp [cyclesOf, hsame, Ne.symm hsame]
  have hlast := hs.lastCycle goalId
  have htasks : (opened s goalId kind trigger cycleId taskId).tasks = s.tasks ++ [⟨taskId, false, true⟩] := rfl
  have hrow : ∀ row, trigger = some row →
      (opened s goalId kind trigger cycleId taskId).triggers = consume row cycleId s.triggers := by
    rintro row rfl
    rfl
  have hsame : trigger = none → (opened s goalId kind trigger cycleId taskId).triggers = s.triggers := by
    rintro rfl
    rfl
  refine ⟨?_, fun other => ?_, fun row hmemRow hopen => ?_, fun row hmemRow => ?_, ?_, ?_,
    fun row hmemRow => ?_, fun row hmemRow token htoken => ?_, ?_, ?_, ?_,
    fun row hmemRow hrelational => ?_⟩
  · rw [hcycles, List.map_append, List.nodup_append]
    refine ⟨hs.ids, List.nodup_singleton _, ?_⟩
    simpa [hid] using hcycleId
  · rw [hcyclesOf]
    split
    case isTrue heq =>
      subst heq
      rw [List.map_append, List.length_append, hs.sequences, List.map_singleton,
        List.length_singleton, List.range'_1_concat, hsequence, hlast, Nat.add_comm]
    case isFalse => exact hs.sequences other
  · rw [hcyclesOf]
    obtain hold | rfl := (hmem row).mp hmemRow
    · have hapart : row.goalId ≠ goalId := fun heq => not_open_of_hasOpenCycle hclosed hold heq hopen
      rw [if_neg hapart]
      exact hs.last row hold hopen
    · rw [if_pos hgoal, List.length_append, List.length_singleton, hsequence, hlast, hgoal]
  · obtain hold | rfl := (hmem row).mp hmemRow
    · exact hs.decided row hold
    · rw [hstatus, hverdict]
      simp
  · rw [hcycles, List.map_append, List.nodup_append]
    refine ⟨hs.taskIds, List.nodup_singleton _, ?_⟩
    rintro id hold _ hnew rfl
    obtain ⟨row, hmemRow, rfl⟩ := List.mem_map.mp hold
    obtain ⟨task, hmemTask, htaskRow, -⟩ := hs.retained row hmemRow
    rw [List.map_singleton, List.mem_singleton, htask] at hnew
    exact htaskId task hmemTask (htaskRow.trans hnew)
  · rw [htasks, List.map_append, List.nodup_append]
    refine ⟨hs.tasks, List.nodup_singleton _, ?_⟩
    simpa using htaskId
  · rw [htasks]
    obtain hold | rfl := (hmem row).mp hmemRow
    · obtain ⟨task, hmemTask, hrest⟩ := hs.retained row hold
      exact ⟨task, List.mem_append_left _ hmemTask, hrest⟩
    · exact ⟨⟨taskId, false, true⟩, List.mem_append_right _ (List.mem_singleton_self _), htask.symm, by simp [hverdict]⟩
  · obtain hold | rfl := (hmem row).mp hmemRow
    · exact hs.tokens row hold token htoken
    · rw [hlease] at htoken
      cases htoken
  · cases trigger with
    | none => exact hs.sources
    | some started =>
      rw [hrow started rfl, consume_sources]
      exact hs.sources
  · have hwoken :
        ∀ row ∈ s.triggers, ∃ cycle ∈ (opened s goalId kind trigger cycleId taskId).cycles,
        cycle.id = row.sourceCycleId ∧ cycle.verdict ≠ none := by
      intro row hmemRow
      obtain ⟨cycle, hcycle, hrest⟩ := hs.woken row hmemRow
      exact ⟨cycle, (hmem cycle).mpr (.inl hcycle), hrest⟩
    intro row hmemRow
    cases trigger with
    | none => exact hwoken row hmemRow
    | some started =>
      rw [hrow started rfl] at hmemRow
      obtain ⟨hold, -⟩ | rfl := (hs.mem_consume (htrigger started rfl).1).mp hmemRow
      · exact hwoken row hold
      · exact hwoken started (htrigger started rfl).1
  · have hconsumed : ∀ row ∈ s.triggers, ∀ id, row.consumedCycleId = some id →
        ∃ cycle ∈ (opened s goalId kind trigger cycleId taskId).cycles, cycle.id = id ∧
        cycle.goalId = row.goalId ∧ cycle.triggerKind = .relational ∧ cycle.sourceCycleId = some row.sourceCycleId := by
      intro row hmemRow id hid
      obtain ⟨cycle, hcycle, hrest⟩ := hs.consumed row hmemRow id hid
      exact ⟨cycle, (hmem cycle).mpr (.inl hcycle), hrest⟩
    intro row hmemRow
    cases trigger with
    | none => exact hconsumed row hmemRow
    | some started =>
      obtain ⟨hstarted, hstartedGoal, -⟩ := htrigger started rfl
      rw [hrow started rfl] at hmemRow
      obtain ⟨hold, -⟩ | rfl := (hs.mem_consume hstarted).mp hmemRow
      · exact hconsumed row hold
      · rintro _ ⟨⟩
        exact ⟨new, (hmem new).mpr (.inr rfl), hid, hgoal.trans hstartedGoal.symm,
          hnewKind.trans (hkind.mpr rfl), hsource⟩
  · obtain hold | rfl := (hmem row).mp hmemRow
    · obtain ⟨woken, hwoken, hwokenGoal, hwokenSource, hwokenConsumed⟩ := hs.relational row hold hrelational
      refine ⟨woken, ?_, hwokenGoal, hwokenSource, hwokenConsumed⟩
      cases trigger with
      | none => exact hwoken
      | some started =>
        obtain ⟨hstarted, -, hnone⟩ := htrigger started rfl
        rw [hrow started rfl, hs.mem_consume hstarted]
        refine .inl ⟨hwoken, fun heq => ?_⟩
        rw [heq, hnone] at hwokenConsumed
        cases hwokenConsumed
    · obtain ⟨started, rfl⟩ := Option.isSome_iff_exists.mp (hkind.mp (hnewKind.symm.trans hrelational))
      obtain ⟨hstarted, hstartedGoal, -⟩ := htrigger started rfl
      rw [hrow started rfl]
      exact ⟨_, (hs.mem_consume hstarted).mpr (.inr rfl), hstartedGoal.trans hgoal.symm, hsource,
        congrArg some hid.symm⟩

/-- A move keeps the ledger. -/
theorem Move.inv (h : Move s t) (hs : Inv s) (hgoals : (s.goals.map (·.id)).Nodup) : Inv t := by
  cases h with
  | keeps goals drafts => exact hs.regoal goals drafts
  | @task goals f hf =>
    have hmem : ∀ {row}, row ∈ s.tasks.map f ↔ ∃ task ∈ s.tasks, f task = row := List.mem_map
    refine ⟨hs.ids, hs.sequences, hs.last, hs.decided, hs.taskIds, ?_, fun cycle hcycle => ?_,
      hs.tokens, hs.sources, hs.woken, hs.consumed, hs.relational⟩
    · show ((s.tasks.map f).map (·.id)).Nodup
      have hids : (s.tasks.map f).map (·.id) = s.tasks.map (·.id) := by
        rw [List.map_map]
        exact List.map_congr_left fun task _ => (hf task).1
      exact hids ▸ hs.tasks
    · obtain ⟨task, htask, hid, hretained⟩ := hs.retained cycle hcycle
      exact ⟨f task, hmem.mpr ⟨task, htask, rfl⟩, (hf task).1.trans hid, by rw [(hf task).2, hretained]⟩
  | @revises goals cycle cycle' hcycle hopen hstatus hlease =>
    refine hs.rewrite hcycle (by simp [hstatus, hopen]) hs.tasks (hs.retained_revised hcycle hopen)
      (fun token htoken => ?_) (List.Subset.refl _) hs.sources
      (List.Subset.refl _) fun _ => .inl
    obtain hsame | hnone := hlease
    · exact ⟨hopen, (hs.tokens cycle hcycle.mem token (hsame ▸ htoken)).2⟩
    · rw [hnone] at htoken
      cases htoken
  | @claims goals cycle cycle' token hcycle hopen hstatus hlease hfresh =>
    refine hs.rewrite hcycle (by simp [hstatus, hopen]) hs.tasks (hs.retained_revised hcycle hopen)
      (fun other hother => ?_) (List.subset_cons_self _ _) hs.sources
      (List.Subset.refl _) fun _ => .inl
    rw [hlease, Option.some.injEq] at hother
    exact ⟨hopen, hother ▸ List.mem_cons_self⟩
  | @settles goals cycle cycle' draw now hcycle hverdict hstatus hlease =>
    refine hs.rewrite hcycle (by simp [hstatus, hverdict]) ?_ (hs.retained_settled hcycle hverdict)
      (fun token htoken => ?_) (List.Subset.refl _)
      (hs.sources_settled hgoals cycle' draw now) (List.subset_append_left _ _) fun trigger htrigger => ?_
    · have hids : (releaseRetention cycle'.taskId s).tasks.map (·.id) = s.tasks.map (·.id) := by
        rw [releaseRetention, List.map_map]
        refine List.map_congr_left fun task _ => ?_
        rw [Function.comp_apply]
        split <;> rfl
      exact hids ▸ hs.tasks
    · rw [hlease] at htoken
      cases htoken
    · obtain hold | hnew := List.mem_append.mp htrigger
      · exact .inl hold
      · obtain ⟨child, -, rfl⟩ := List.mem_map.mp hnew
        exact .inr ⟨rfl, hverdict, rfl⟩
  | opens goals hclosed hcycleId htaskId htrigger hkind =>
    exact (hs.open hclosed hcycleId htaskId htrigger hkind).regoal goals _

end Runs
end Galaris.Goals
