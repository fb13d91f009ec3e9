import Galaris.Goal.Hierarchy
import Mathlib.Data.Option.Basic

/-! Runs of Goals and their cycles.

Each operation is a move of the ledger and writes at most one Goal (`perform_effect`); what these keep and relate holds
of every run, from which the results about whole runs are read. -/
namespace Galaris.Goals

open Transition Ancestry

section Runs
variable {s t u v : State}

/-! ### What an operation does -/

/-- The rows are those of a ledger of cycles and of a hierarchy. -/
structure Sound (s : State) : Prop where
  ledger : Inv s
  forest : Forest s

structure Effect (s t : State) : Prop where
  move : Move s t
  regoal : Regoal s t.goals

/-- What a command does keeps the invariants of both layers. -/
theorem Effect.sound (h : Effect s t) (hs : Sound s) : Sound t :=
    ⟨h.move.inv hs.ledger hs.forest.ids, h.regoal.forest hs.forest rfl⟩

/-- A command that changes nothing has an effect, too. -/
theorem Effect.idle (s : State) : Effect s s := ⟨.keeps s.goals s.drafts, .keeps⟩

/-- Only cycles, wake-ups and Tasks are written. -/
theorem Effect.of_move (hmove : Move s u) (hgoals : u.goals = s.goals) : Effect s u := ⟨hmove, hgoals ▸ .keeps⟩

/-- The Goal is written where its row is the one that was read. -/
theorem revise_eq_some {held goal : Goal} (hheld : holds s held = true) (hgoals : u.goals = s.goals)
    (h : revise held goal u = some t) :
    held ∈ s.goals ∧ t = putGoal {goal with revision := held.revision + 1} u := by
  have hread : row? u held.id = row? s held.id := congrArg (List.find? _) hgoals
  rw [revise, hread] at h
  rw [holds] at hheld
  cases hrow : row? s held.id with
  | none =>
    rw [hrow] at hheld
    cases hheld
  | some row =>
    rw [hrow, Option.any_some] at h hheld
    split at h
    case isFalse => cases h
    case isTrue hrevision =>
      have hsame : row = held := by
        obtain hsame | holder := Bool.or_eq_true_iff.mp hheld
        · exact of_decide_eq_true hsame
        · have hlt := of_decide_eq_true holder
          have heq := of_decide_eq_true hrevision
          omega
      exact ⟨hsame ▸ List.mem_of_find?_eq_some hrow, (Option.some.inj h).symm⟩

/-- The transaction that has written its other rows writes its Goal as well, or leaves it. -/
theorem flush_cases {held goal : Goal} (hheld : holds s held = true) (hgoals : u.goals = s.goals)
    (h : flush held goal u = some t) :
    t = u ∨ held ∈ s.goals ∧ t = putGoal {goal with revision := held.revision + 1} u := by
  rw [Goals.flush] at h
  split at h
  · exact .inl (Option.some.inj h).symm
  · exact .inr (revise_eq_some hheld hgoals h)

theorem Effect.revise {held goal : Goal} (hheld : holds s held = true)
    (h : revise held goal u = some t) (hmove : Move s u) (hgoals : u.goals = s.goals)
    (hid : goal.id = held.id) (hdeleted : goal.deleted = held.deleted)
    (hparent : goal.parentGoalId = held.parentGoalId ∨
      assertParent s held.id goal.parentGoalId = true) : Effect s t := by
  obtain ⟨hmem, rfl⟩ := revise_eq_some hheld hgoals h
  refine ⟨hmove.regoal _, ?_⟩
  rw [putGoal, hgoals]
  exact .writes hmem hid (Nat.lt_succ_self _) hdeleted hparent

/-- A transaction writes its other rows, and its Goal with the parent that it has or with one that is accepted. -/
theorem Effect.flush {held goal : Goal} (hheld : holds s held = true)
    (h : flush held goal u = some t) (hmove : Move s u) (hgoals : u.goals = s.goals)
    (hid : goal.id = held.id) (hdeleted : goal.deleted = held.deleted)
    (hparent : goal.parentGoalId = held.parentGoalId ∨
      assertParent s held.id goal.parentGoalId = true) : Effect s t := by
  rw [Goals.flush] at h
  split at h
  · exact Option.some.inj h ▸ .of_move hmove hgoals
  · exact .revise hheld h hmove hgoals hid hdeleted hparent

/-- A cycle in error has no verdict. -/
theorem opened_of_error (hs : Inv s) {cycle : Cycle} (hmem : cycle ∈ s.cycles)
    (hstatus : cycle.status = .error) : cycle.verdict = none := by
  by_contra hverdict
  rw [(hs.decided cycle hmem).mpr hverdict] at hstatus
  cases hstatus

theorem lastCycle_mem {goalId : GoalId} {cycle : Cycle} (h : lastCycle s goalId = some cycle) : cycle ∈ s.cycles :=
  List.mem_of_mem_filter (List.argmax_mem h)

/-- Setting the failed judgement of the last cycle back is a move of the ledger, and writes no Goal. -/
theorem resetFailedJudgement_move (hs : Inv s) (goalId : GoalId) :
    Move s (resetFailedJudgement s goalId).1 ∧ (resetFailedJudgement s goalId).1.goals = s.goals := by
  rw [resetFailedJudgement]
  split
  case h_1 => exact ⟨.keeps s.goals s.drafts, rfl⟩
  case h_2 cycle hlast =>
    split
    case isFalse => exact ⟨.keeps s.goals s.drafts, rfl⟩
    case isTrue hstatus =>
      have hmem := lastCycle_mem hlast
      have hopen := opened_of_error hs hmem hstatus
      exact ⟨.revises s.goals ⟨hmem, hopen, ⟨rfl, rfl, rfl, rfl, rfl, rfl⟩⟩ hopen
        (by simp [Cycle.clearLease]) (.inr rfl), rfl⟩

/-- `complete` keeps to what a command may do. -/
theorem complete_effect {held : Goal} {expectedRevision : Nat} {draw : GoalId → Nat} {now : Int}
    (hheld : holds s held = true)
    (h : complete s held expectedRevision draw now = some t) : Effect s t := by
  simp only [complete, Option.bind_eq_bind, Option.bind_eq_some_iff, Option.guard_eq_some', exists_const] at h
  refine .flush hheld h.2 ?_ ?_ rfl rfl (.inl rfl)
  · split
    case h_1 => exact .keeps s.goals s.drafts
    case h_2 cycle hlast =>
      split
      case isFalse => exact .keeps s.goals s.drafts
      case isTrue hstatus =>
        exact .settles s.goals draw now ⟨lastCycle_mem hlast, hstatus.2,
          ⟨rfl, rfl, rfl, rfl, rfl, rfl⟩⟩ (Option.some_ne_none _) rfl rfl
  · split
    case h_1 => rfl
    case h_2 => split <;> rfl

/-- `update` keeps to what a command may do; its new parent has been checked. -/
theorem update_effect {held : Goal} {expectedRevision : Nat} {change : Change} {now : Int} (hheld : holds s held = true)
    (h : update s held expectedRevision change now = some t) : Effect s t := by
  simp only [update, Option.bind_eq_bind, Option.bind_eq_some_iff, Option.guard_eq_some', exists_const] at h
  obtain ⟨-, -, -, haccepted, h⟩ := h
  have hparent : change.parentGoalId.getD held.parentGoalId = held.parentGoalId ∨
      assertParent s held.id (change.parentGoalId.getD held.parentGoalId) = true := by
    cases hchange : change.parentGoalId with
    | none => exact .inl rfl
    | some parent =>
      rw [hchange, Option.all_some] at haccepted
      exact .inr haccepted
  split at h
  · refine .revise hheld h (.keeps s.goals s.drafts) rfl ?_ ?_ ?_
    · split <;> rfl
    · split <;> rfl
    · split <;> exact hparent
  · refine .flush hheld h (.keeps s.goals s.drafts) rfl ?_ ?_ ?_
    · split <;> rfl
    · split <;> rfl
    · split <;> exact hparent

/-- `create` opens a transaction with a draft. -/
theorem create_effect {goal : Goal} {active : Bool} {now : Int}
    (h : create s goal active now = some t) : Effect s t := by
  simp only [create, Option.bind_eq_bind, Option.bind_eq_some_iff, Option.guard_eq_some',
    exists_const, Option.pure_def, Option.some.injEq] at h
  obtain ⟨-, -, rfl⟩ := h
  exact ⟨.keeps s.goals _, .keeps⟩

/-- The insertion turns a draft into a Goal. -/
theorem insert_effect {draft : Goal} (h : insert s draft = some t) : Effect s t := by
  simp only [insert, Option.bind_eq_bind, Option.bind_eq_some_iff, Option.guard_eq_some',
    exists_const, Option.pure_def, Option.some.injEq, Bool.and_eq_true,
    List.all_eq_true, decide_eq_true_eq] at h
  obtain ⟨-, ⟨hfresh, hparent⟩, rfl⟩ := h
  refine ⟨.keeps _ _, .adds hfresh fun parent hunder => ?_⟩
  rw [hunder, Option.all_some, row?, List.find?_isSome] at hparent
  simpa using hparent

/-- A Goal is deleted only without live children. -/
theorem delete_effect {held : Goal} (hheld : holds s held = true) (h : delete s held = some t) : Effect s t := by
  simp only [delete, Option.bind_eq_bind, Option.bind_eq_some_iff, Option.guard_eq_some',
    exists_const, Bool.and_eq_true] at h
  obtain ⟨⟨-, hnone⟩, h⟩ := h
  obtain rfl | ⟨hmem, rfl⟩ := flush_cases hheld rfl h
  · exact .idle _
  · exact ⟨.keeps _ _, .deletes hmem rfl (Nat.lt_succ_self _) rfl rfl (List.isEmpty_iff.mp hnone)⟩

/-- Preparing a terminal cycle moves it on; a Goal that is gone gets its verdict at once. -/
theorem prepareTerminalCycle_effect {cycleId : CycleId} {held : Goal} {finishedAt : Int}
    {draw : GoalId → Nat} {now : Int}
    (h : prepareTerminalCycle s cycleId held finishedAt draw now = some t) : Effect s t := by
  simp only [prepareTerminalCycle, Option.bind_eq_bind, Option.bind_eq_some_iff,
    Option.guard_eq_some', exists_const, Bool.and_eq_true, Option.isNone_iff_eq_none] at h
  obtain ⟨cycle, hcycle, ⟨⟨hopen, -⟩, -⟩, h⟩ := h
  have hmem := (cycle?_eq_some hcycle).1
  split at h
  · obtain rfl := Option.some.inj h
    exact .of_move (.settles s.goals draw now ⟨hmem, hopen, ⟨rfl, rfl, rfl, rfl, rfl, rfl⟩⟩
      (Option.some_ne_none _) rfl rfl) rfl
  · obtain rfl := Option.some.inj h
    exact .of_move (.revises s.goals ⟨hmem, hopen, ⟨rfl, rfl, rfl, rfl, rfl, rfl⟩⟩ hopen (by simp) (.inl rfl)) rfl

/-- A judgement does not move the Goal in the hierarchy. -/
theorem judged_same (goal : Goal) (cycle : Cycle) (action : Verdict) (now : Int) :
    (goal.judged cycle action now).id = goal.id ∧ (goal.judged cycle action now).deleted = goal.deleted ∧
      (goal.judged cycle action now).parentGoalId = goal.parentGoalId := by
  cases action <;> exact ⟨rfl, rfl, rfl⟩

/-- The cycle is written without a claim, or with `next`. -/
def Hands (s t : State) (cycleId : CycleId) (next : Option Token) : Prop :=
  ∃ cycle cycle', t.cycles = (putCycle cycle' s).cycles ∧ Rewrites s cycle cycle' ∧
    cycle.id = cycleId ∧ (cycle'.leaseToken = none ∨ cycle'.leaseToken = next)

/-- A claim hands the cycle to its own, fresh token. -/
theorem claimTerminalCycle_effect {cycleId : CycleId} {held : Goal} {token : Token}
    {finishedAt : Int} {draw : GoalId → Nat} {now : Int}
    (hfresh : token ∉ s.issued) (h : claimTerminalCycle s cycleId held token finishedAt draw now =
      some t) : Effect s t ∧ Hands s t cycleId (some token) := by
  simp only [claimTerminalCycle, Option.bind_eq_bind, Option.bind_eq_some_iff,
    Option.guard_eq_some', exists_const, Bool.and_eq_true, Option.isNone_iff_eq_none] at h
  obtain ⟨cycle, hcycle, ⟨⟨⟨hopen, -⟩, -⟩, -⟩, h⟩ := h
  obtain ⟨hmem, hid⟩ := cycle?_eq_some hcycle
  split at h
  · obtain rfl := Option.some.inj h
    exact ⟨.of_move (.settles s.goals draw now ⟨hmem, hopen, ⟨rfl, rfl, rfl, rfl, rfl, rfl⟩⟩
      (Option.some_ne_none _) rfl rfl) rfl,
      ⟨cycle, _, rfl, ⟨hmem, hopen, ⟨rfl, rfl, rfl, rfl, rfl, rfl⟩⟩, hid, .inl rfl⟩⟩
  · obtain rfl := Option.some.inj h
    exact ⟨.of_move (.claims s.goals ⟨hmem, hopen, ⟨rfl, rfl, rfl, rfl, rfl, rfl⟩⟩ hopen (by simp) rfl hfresh) rfl,
      ⟨cycle, _, rfl, ⟨hmem, hopen, ⟨rfl, rfl, rfl, rfl, rfl, rfl⟩⟩, hid, .inr rfl⟩⟩

theorem flush_cycles {held goal : Goal} (h : flush held goal u = some t) : t.cycles = u.cycles := by
  rw [Goals.flush, Goals.revise] at h
  split at h
  · exact Option.some.inj h ▸ rfl
  · split at h
    · exact Option.some.inj h ▸ rfl
    · cases h

/-- A judgement changes nothing, or its token is the one the cycle was handed to, and nobody has the
cycle afterwards. -/
theorem finishJudgement_effect (hs : Inv s) {cycleId : CycleId} {held : Goal} {token : Token}
    {judgement : Judgement} {expectedGoalRevision : Nat}
    {unchanged saved : Bool} {draw : GoalId → Nat} {now : Int} (hheld : holds s held = true)
    (h : finishJudgement s cycleId held token judgement expectedGoalRevision unchanged saved draw
      now = some t) : Effect s t ∧ (t = s ∨ token ∈ s.issued ∧ Hands s t cycleId none) := by
  simp only [finishJudgement, Option.bind_eq_bind, Option.bind_eq_some_iff] at h
  obtain ⟨cycle, hcycle, h⟩ := h
  obtain ⟨hmem, hid⟩ := cycle?_eq_some hcycle
  split at h
  · obtain rfl := Option.some.inj h
    exact ⟨.idle _, .inl rfl⟩
  case isFalse htoken =>
    obtain ⟨hopen, hissued⟩ := hs.tokens cycle hmem token (not_not.mp htoken)
    split at h
    · obtain rfl := Option.some.inj h
      have hrow :
          Rewrites s cycle ({cycle with status := .running, error := none} : Cycle).clearLease :=
          ⟨hmem, hopen, ⟨rfl, rfl, rfl, rfl, rfl, rfl⟩⟩
      exact ⟨.of_move (.revises s.goals hrow hopen (by simp [Cycle.clearLease]) (.inr rfl)) rfl,
        .inr ⟨hissued, _, _, rfl, hrow, hid, .inl rfl⟩⟩
    · simp only [Option.bind_eq_some_iff, Option.guard_eq_some', exists_const] at h
      obtain ⟨hsame, hdeleted, hparent⟩ :=
        judged_same held cycle (if held.status = .completed then .stops else judgement.action) now
      refine ⟨.flush hheld h.2 (.settles s.goals draw now ⟨hmem, hopen, ⟨rfl, rfl, rfl, rfl, rfl,
        rfl⟩⟩ (Option.some_ne_none _) rfl rfl) rfl hsame hdeleted (.inl hparent),
        .inr ⟨hissued, cycle, _, (flush_cycles h.2 :), ⟨hmem, hopen, ⟨rfl, rfl, rfl, rfl, rfl, rfl⟩⟩, hid, .inl rfl⟩⟩

/-- A judgement that failed changes nothing, or its token is the one the cycle was handed to, and nobody
has it afterwards. -/
theorem failJudgement_effect (hs : Inv s) {cycleId : CycleId} {held : Goal} {token : Token}
    {error : String} {draw : GoalId → Nat} {now : Int}
    (hheld : holds s held = true) (h : failJudgement s cycleId held token error draw now = some t) :
    Effect s t ∧ (t = s ∨ token ∈ s.issued ∧ Hands s t cycleId none) := by
  simp only [failJudgement, Option.bind_eq_bind, Option.bind_eq_some_iff] at h
  obtain ⟨cycle, hcycle, h⟩ := h
  obtain ⟨hmem, hid⟩ := cycle?_eq_some hcycle
  split at h
  · obtain rfl := Option.some.inj h
    exact ⟨.idle _, .inl rfl⟩
  case isFalse htoken =>
    obtain ⟨hopen, hissued⟩ := hs.tokens cycle hmem token (not_not.mp htoken)
    split at h
    · obtain rfl := Option.some.inj h
      refine ⟨.of_move (.settles s.goals draw now ⟨hmem, hopen, ⟨rfl, rfl, rfl, rfl, rfl, rfl⟩⟩
        (Option.some_ne_none _) rfl rfl) rfl,
        .inr ⟨hissued, cycle, _, rfl, ⟨hmem, hopen, ⟨rfl, rfl, rfl, rfl, rfl, rfl⟩⟩, hid, .inl rfl⟩⟩
    · refine ⟨.flush hheld h (.revises s.goals ⟨hmem, hopen, ⟨rfl, rfl, rfl, rfl, rfl, rfl⟩⟩ hopen
        (by simp [Cycle.clearLease]) (.inr rfl)) rfl rfl rfl (.inl rfl),
        .inr ⟨hissued, cycle, _, (flush_cycles h :), ⟨hmem, hopen, ⟨rfl, rfl, rfl, rfl, rfl, rfl⟩⟩, hid, .inl rfl⟩⟩

/-- The next wake-up of a Goal is one of its own that is not consumed. -/
theorem nextTrigger_spec {goalId : GoalId} {trigger : Trigger} (h : nextTrigger s goalId = some trigger) :
    trigger ∈ s.triggers ∧ trigger.goalId = goalId ∧ trigger.consumedCycleId = none := by
  obtain ⟨hmem, hrest⟩ := List.mem_filter.mp (List.mem_of_find?_eq_some h)
  simpa [hmem] using hrest

/-- A start opens the next cycle of the Goal, and consumes the wake-up that caused it. -/
theorem startDueCycle_effect {held : Goal} {manualOnly : Bool} {answers : Answers}
    {cycleId : CycleId} {taskId : TaskId} {now : Int}
    (hheld : holds s held = true) (hcycleId : ∀ cycle ∈ s.cycles, cycle.id ≠ cycleId)
    (htaskId : ∀ task ∈ s.tasks, task.id ≠ taskId)
    (h : startDueCycle s held manualOnly answers cycleId taskId now = some t) : Effect s t := by
  simp only [startDueCycle, Option.bind_eq_bind, Option.bind_eq_some_iff, Option.guard_eq_some', exists_const] at h
  obtain ⟨row, hrow, hselected, -, -, -, h⟩ := h
  have hclosed : hasOpenCycle s held.id = false := by
    rw [← (goal?_eq_some hrow).2.1]
    simp only [selected, Bool.and_eq_true, Bool.not_eq_true'] at hselected
    exact hselected.1.1.2
  split at h
  · exact .flush hheld h (.keeps s.goals s.drafts) rfl rfl rfl (.inl rfl)
  · simp only [Option.bind_eq_some_iff, Option.guard_eq_some', exists_const] at h
    obtain ⟨-, h⟩ := h
    split at h
    · exact .flush hheld h (.keeps s.goals s.drafts) rfl rfl rfl (.inl rfl)
    · simp only [Option.bind_eq_some_iff, Option.guard_eq_some', exists_const] at h
      refine .flush hheld h.2 (.opens s.goals hclosed hcycleId htaskId (fun row hrow => ?_) ?_) rfl rfl rfl (.inl rfl)
      · split at hrow
        · cases hrow
        · exact nextTrigger_spec hrow
      · rw [kindOf]
        cases hmanual : held.manualRunRequestedAt.isSome with
        | true => simp
        | false => cases nextTrigger s held.id <;> simp

/-- The cycle that goes with a Task that is forced to an end. -/
def forced (s : State) (taskId : TaskId) : Option CycleId :=
  (s.cycles.find? fun cycle => cycle.taskId = taskId && cycle.verdict.isNone && cycle.status != .decided).map (·.id)

/-- A forced end takes the cycle of the Task from whoever had claimed it. -/
theorem forceTermination_effect {taskId : TaskId} {held : Goal} {draw : GoalId → Nat}
    {finishedAt now : Int} (hheld : holds s held = true)
    (h : forceTermination s taskId held draw finishedAt now = some t) :
    Effect s t ∧ ∀ cycleId, forced s taskId = some cycleId → Hands s t cycleId none := by
  simp only [forceTermination, Option.bind_eq_bind, Option.bind_eq_some_iff, Option.guard_eq_some', exists_const] at h
  obtain ⟨cycle, hcycle, -, h⟩ := h
  have hmem := List.mem_of_find?_eq_some hcycle
  have hopen : cycle.verdict = none := by
    have hfound := List.find?_some hcycle
    simp only [Bool.and_eq_true, Option.isNone_iff_eq_none] at hfound
    exact hfound.1.2
  have hforced : ∀ cycleId, forced s taskId = some cycleId → cycle.id = cycleId := fun cycleId hid => by
    rw [forced, hcycle] at hid
    exact Option.some.inj hid
  split at h
  · obtain rfl := Option.some.inj h
    exact ⟨.of_move (.settles s.goals draw now ⟨hmem, hopen, ⟨rfl, rfl, rfl, rfl, rfl, rfl⟩⟩
      (Option.some_ne_none _) rfl rfl) rfl,
      fun cycleId hid => ⟨cycle, _, rfl, ⟨hmem, hopen, ⟨rfl, rfl, rfl, rfl, rfl, rfl⟩⟩, hforced cycleId hid, .inl rfl⟩⟩
  · exact ⟨.flush hheld h (.settles s.goals draw now ⟨hmem, hopen, ⟨rfl, rfl, rfl, rfl, rfl, rfl⟩⟩
      (Option.some_ne_none _) rfl rfl) rfl rfl rfl (.inl rfl),
      fun cycleId hid => ⟨cycle, _, (flush_cycles h :),
        ⟨hmem, hopen, ⟨rfl, rfl, rfl, rfl, rfl, rfl⟩⟩, hforced cycleId hid, .inl rfl⟩⟩

/-- Whatever event happens, it keeps to what a command may do. -/
theorem perform_effect (hs : Sound s) {event : Event} (hpossible : possible s event = true)
    (h : perform s event = some t) : Effect s t := by
  cases event with
  | create => exact create_effect h
  | insert => exact insert_effect h
  | update => exact update_effect hpossible h
  | pause held =>
    simp only [perform, pause, Option.bind_eq_bind, Option.bind_eq_some_iff, Option.guard_eq_some', exists_const] at h
    exact .flush hpossible h.2 (.keeps s.goals s.drafts) rfl rfl rfl (.inl rfl)
  | resume held =>
    simp only [perform, resume, Option.bind_eq_bind, Option.bind_eq_some_iff, Option.guard_eq_some', exists_const] at h
    obtain ⟨hmove, hgoals⟩ := resetFailedJudgement_move hs.ledger held.id
    exact .flush hpossible h.2 hmove hgoals rfl rfl (.inl rfl)
  | complete => exact complete_effect hpossible h
  | runNow held =>
    simp only [perform, runNow, Option.bind_eq_bind, Option.bind_eq_some_iff, Option.guard_eq_some', exists_const] at h
    obtain ⟨hmove, hgoals⟩ := resetFailedJudgement_move hs.ledger held.id
    refine .flush hpossible h.2.2 ?_ ?_ rfl rfl (.inl rfl)
    · split
      · exact hmove
      · exact .keeps s.goals s.drafts
    · split
      · exact hgoals
      · rfl
  | delete => exact delete_effect hpossible h
  | documentChanged goalId =>
    simp only [perform, documentChanged, Option.bind_eq_bind, Option.bind_eq_some_iff] at h
    obtain ⟨goal, hgoal, h⟩ := h
    obtain rfl := Option.some.inj h
    exact ⟨.keeps _ _, .writes (goal?_eq_some hgoal).1 rfl (Nat.lt_succ_self _) rfl (.inl rfl)⟩
  | pauseForNoResponse held =>
    simp only [perform, pauseForNoResponse, Option.bind_eq_bind, Option.bind_eq_some_iff,
      Option.guard_eq_some', exists_const] at h
    exact .flush hpossible h.2 (.keeps s.goals s.drafts) rfl rfl rfl (.inl rfl)
  | answered held =>
    simp only [perform, answered, Option.bind_eq_bind, Option.bind_eq_some_iff,
      Option.guard_eq_some', exists_const] at h
    exact .flush hpossible h.2 (.keeps s.goals s.drafts) rfl rfl rfl (.inl rfl)
  | unreachable held =>
    simp only [perform, unreachable, Option.bind_eq_bind, Option.bind_eq_some_iff,
      Option.guard_eq_some', exists_const] at h
    exact .flush hpossible h.2 (.keeps s.goals s.drafts) rfl rfl rfl (.inl rfl)
  | prepare => exact prepareTerminalCycle_effect h
  | claim =>
    simp only [possible, Bool.and_eq_true, Bool.not_eq_true'] at hpossible
    exact (claimTerminalCycle_effect (by simpa using hpossible.2) h).1
  | finish => exact (finishJudgement_effect hs.ledger (Bool.and_eq_true_iff.mp hpossible).1 h).1
  | fail => exact (failJudgement_effect hs.ledger (Bool.and_eq_true_iff.mp hpossible).1 h).1
  | start =>
    simp only [possible, Bool.and_eq_true, List.all_eq_true, decide_eq_true_eq] at hpossible
    exact startDueCycle_effect hpossible.1.1 hpossible.1.2 hpossible.2 h
  | force => exact (forceTermination_effect hpossible h).1
  | task taskId terminal =>
    obtain rfl := Option.some.inj h
    refine .of_move (.task s.goals fun task => ?_) rfl
    split <;> exact ⟨rfl, rfl⟩

/-! ### Runs -/

theorem happens_effect (hs : Sound s) {event : Event} (h : Happens s event t) : Effect s t := by
  rw [Happens, Executes, apply] at h
  split at h
  case isFalse => cases h
  case isTrue hpossible =>
    obtain rfl := Option.some.inj h
    cases hperform : perform s event with
    | none => exact .idle s
    | some u => exact perform_effect hs hpossible hperform

theorem sound_empty : Sound {} := by
  refine ⟨⟨List.nodup_nil, fun _ => rfl, ?_, ?_, List.nodup_nil, List.nodup_nil, ?_, ?_,
    List.nodup_nil, ?_, ?_, ?_⟩, ⟨List.nodup_nil, ?_, acyclic_empty⟩⟩
  all_goals exact fun _ hmem => absurd hmem List.not_mem_nil

variable {events events' : List Event} {event event' : Event}

theorem run_sound (hs : Sound s) (h : Steps Happens s events t) : Sound t :=
  h.invariant (P := Sound) (fun _ _ _ hu hstep => (happens_effect hu hstep).sound hu) hs

/-- What every effect on sound rows does holds of a run. -/
theorem run_related {R : State → State → Prop} (refl : ∀ s, R s s) (trans : ∀ s t u, R s t → R t u → R s u)
    (one : ∀ s t, Sound s → Effect s t → R s t) (hs : Sound s) (h : Steps Happens s events t) : R s t := by
  induction h with
  | nil => exact refl _
  | cons hstep _ ih =>
    have heffect := happens_effect hs hstep
    exact trans _ _ _ (one _ _ hs heffect) (ih (heffect.sound hs))

/-! ### The ledger of cycles -/

/-- A verdict is final. -/
theorem Move.decided (h : Move s t) {cycle : Cycle} (hmem : cycle ∈ s.cycles)
    (hverdict : cycle.verdict ≠ none) (hs : Inv s) : cycle ∈ t.cycles := by
  have hother : ∀ {old new : Cycle}, Rewrites s old new → cycle ∈ (putCycle new s).cycles := fun {old new} hrow => by
    refine (hrow.mem_iff hs).mpr (.inr ⟨hmem, fun hid => hverdict ?_⟩)
    rw [hs.eq_of_id hmem hrow.mem hid, hrow.opened]
  cases h with
  | keeps | task => exact hmem
  | revises _ hrow => exact hother hrow
  | claims _ hrow => exact hother hrow
  | settles _ _ _ hrow => exact hother hrow
  | opens => exact List.mem_append_left _ hmem

/-- The cycles of a Goal are numbered without a gap, only its last may want a verdict, the Task of a cycle
is kept as long as it does, and a verdict is final. The deletion of a Task is no step here: it releases the
Task also where its Goal step failed. -/
theorem cycle_ledger (h : Steps Happens {} events s) (hlater : Steps Happens s events' t) :
    (∀ goalId, (cyclesOf s goalId).map (·.sequence) = List.range' 1 (cyclesOf s goalId).length) ∧
    (∀ cycle ∈ s.cycles, cycle.verdict = none → cycle.sequence = (cyclesOf s cycle.goalId).length) ∧
    (∀ cycle ∈ s.cycles, ∃ task ∈ s.tasks, task.id = cycle.taskId ∧ (task.retained = true ↔ cycle.verdict = none)) ∧
    ∀ cycle ∈ s.cycles, cycle.verdict ≠ none → cycle ∈ t.cycles := by
  have hs := run_sound sound_empty h
  refine ⟨hs.ledger.sequences, hs.ledger.last, hs.ledger.retained, fun cycle hmem hverdict => ?_⟩
  have hkept := run_related (R := fun s t => ∀ cycle ∈ s.cycles, cycle.verdict ≠ none →
      cycle ∈ t.cycles) (fun _ _ hmem _ => hmem)
    (fun _ _ _ hst htu cycle hmem hverdict => htu cycle (hst cycle hmem hverdict) hverdict)
    (fun _ _ hs heffect _ hmem hverdict => heffect.move.decided hmem hverdict hs.ledger) hs hlater
  exact hkept cycle hmem hverdict

/-! ### Claims -/

/-- The claim that an event answers. -/
def Event.answers : Event → Option (CycleId × Token)
  | .finish cycleId _ token _ _ _ _ _ _ => some (cycleId, token)
  | .fail cycleId _ token _ _ _ => some (cycleId, token)
  | _ => none

/-- The token has been drawn, and the cycle does not have it. -/
structure Void (s : State) (cycleId : CycleId) (token : Token) : Prop where
  drawn : token ∈ s.issued
  lost : ∀ cycle ∈ s.cycles, cycle.id = cycleId → cycle.leaseToken ≠ some token

variable {cycleId : CycleId} {token : Token} {next : Option Token}

/-- No token comes back. -/
theorem Move.void (h : Move s t) (hs : Inv s) (hvoid : Void s cycleId token) : Void t cycleId token := by
  have hrewritten : ∀ {old new : Cycle}, Rewrites s old new → (old.id = cycleId → new.leaseToken ≠ some token) →
      ∀ cycle ∈ (putCycle new s).cycles, cycle.id = cycleId → cycle.leaseToken ≠ some token := by
    intro old new hrow hnew cycle hmem hid
    obtain rfl | ⟨hold, -⟩ := (hrow.mem_iff hs).mp hmem
    · exact hnew (hrow.same.id ▸ hid)
    · exact hvoid.lost cycle hold hid
  cases h with
  | keeps | task => exact ⟨hvoid.drawn, hvoid.lost⟩
  | @revises _ old new hrow _ _ hlease =>
    refine ⟨hvoid.drawn, hrewritten hrow fun hid => ?_⟩
    obtain hsame | hnone := hlease
    · exact hsame ▸ hvoid.lost old hrow.mem hid
    · exact hnone ▸ (Option.some_ne_none token).symm
  | @claims _ old new fresh hrow _ _ hlease hfresh =>
    refine ⟨List.mem_cons_of_mem _ hvoid.drawn, hrewritten hrow fun _ hsame => hfresh ?_⟩
    rw [hlease, Option.some.injEq] at hsame
    exact hsame ▸ hvoid.drawn
  | settles _ _ _ hrow _ _ hlease =>
    exact ⟨hvoid.drawn, hrewritten hrow fun _ => hlease ▸ (Option.some_ne_none token).symm⟩
  | opens =>
    refine ⟨hvoid.drawn, fun cycle hmem hid => ?_⟩
    obtain hold | hnew := List.mem_append.mp hmem
    · exact hvoid.lost cycle hold hid
    · rw [List.mem_singleton.mp hnew]
      exact (Option.some_ne_none token).symm

/-- What answers a void claim changes nothing. -/
theorem Void.idle (hvoid : Void s cycleId token) (hanswers : event.answers = some (cycleId, token))
    (h : Happens s event t) : t = s := by
  have hlost : ∀ cycle, cycle? s cycleId = some cycle → cycle.leaseToken ≠ some token := fun cycle hcycle =>
    hvoid.lost cycle (cycle?_eq_some hcycle).1 (cycle?_eq_some hcycle).2
  have hperform : (perform s event).getD s = s := by
    cases event with
    | finish cycleId' held token' =>
      obtain ⟨rfl, rfl⟩ := Prod.mk.inj (Option.some.inj hanswers)
      rw [perform, finishJudgement]
      cases hcycle : cycle? s cycleId' with
      | none => rfl
      | some cycle =>
        rw [Option.bind_eq_bind, Option.bind_some, if_pos (hlost cycle hcycle)]
        rfl
    | fail cycleId' held token' =>
      obtain ⟨rfl, rfl⟩ := Prod.mk.inj (Option.some.inj hanswers)
      rw [perform, failJudgement]
      cases hcycle : cycle? s cycleId' with
      | none => rfl
      | some cycle =>
        rw [Option.bind_eq_bind, Option.bind_some, if_pos (hlost cycle hcycle)]
        rfl
    | _ => cases hanswers
  rw [Happens, Executes, apply] at h
  split at h
  · exact (Option.some.inj h).symm.trans hperform
  · cases h

/-- A token that has been drawn and is not the one a cycle is handed to is void there. -/
theorem Hands.void (h : Hands s t cycleId next) (hs : Inv s) (hdrawn : token ∈ t.issued)
    (hnext : next ≠ some token) : Void t cycleId token := by
  obtain ⟨old, new, hcycles, hrow, rfl, hlease⟩ := h
  refine ⟨hdrawn, fun cycle hmem hid => ?_⟩
  rw [hcycles] at hmem
  obtain rfl | ⟨-, hother⟩ := (hrow.mem_iff hs).mp hmem
  · obtain hnone | hnew := hlease
    · exact hnone ▸ (Option.some_ne_none token).symm
    · exact hnew ▸ hnext
  · exact absurd hid hother

theorem Move.issued (h : Move s t) : s.issued ⊆ t.issued := by
  cases h with
  | claims => exact List.subset_cons_self _ _
  | _ => exact List.Subset.refl _

/-- The cycle that an event claims. -/
def Event.claims : Event → Option CycleId
  | .claim cycleId _ _ _ _ _ => some cycleId
  | _ => none

/-- The cycle that an event forces to an end. -/
def Event.forces (s : State) : Event → Option CycleId
  | .force taskId _ _ _ _ => forced s taskId
  | _ => none

/-- What ends the claim of a cycle under a token: an answer to it, a later claim, or a forced end of its Task. -/
def Event.ends (s : State) (cycleId : CycleId) (token : Token) (event : Event) : Prop :=
  event.answers = some (cycleId, token) ∨ token ∈ s.issued ∧
    (event.claims = some cycleId ∨ event.forces s = some cycleId)

/-- What ends a claim, if it changes something, takes the lease from the cycle. -/
theorem void_of_ended (hs : Sound s) (h : Happens s event t) (hchanges : t ≠ s)
    (hends : event.ends s cycleId token) : Void t cycleId token := by
  have hissued := (happens_effect hs h).move.issued
  rw [Happens, Executes, apply] at h
  split at h
  case isFalse => cases h
  case isTrue hpossible =>
    obtain rfl := Option.some.inj h
    cases hperform : perform s event with
    | none =>
      rw [hperform] at hchanges
      exact absurd rfl hchanges
    | some u =>
      rw [hperform] at hchanges hissued
      rw [Option.getD_some] at hchanges hissued ⊢
      have hanswered : u = s ∨ token ∈ s.issued ∧ Hands s u cycleId none → Void u cycleId token := fun hreleased => by
        obtain ⟨hdrawn, hhands⟩ := hreleased.resolve_left hchanges
        exact hhands.void hs.ledger (hissued hdrawn) (Option.some_ne_none token).symm
      obtain hanswers | ⟨hdrawn, hclaims | hforces⟩ := hends
      · cases event with
        | finish =>
          obtain ⟨rfl, rfl⟩ := Prod.mk.inj (Option.some.inj hanswers)
          exact hanswered (finishJudgement_effect hs.ledger (Bool.and_eq_true_iff.mp hpossible).1 hperform).2
        | fail =>
          obtain ⟨rfl, rfl⟩ := Prod.mk.inj (Option.some.inj hanswers)
          exact hanswered (failJudgement_effect hs.ledger (Bool.and_eq_true_iff.mp hpossible).1 hperform).2
        | _ => cases hanswers
      · cases event with
        | claim cycleId' held fresh =>
          obtain rfl := Option.some.inj hclaims
          have hfresh : fresh ∉ s.issued := by
            simp only [possible, Bool.and_eq_true, Bool.not_eq_true'] at hpossible
            simpa using hpossible.2
          refine (claimTerminalCycle_effect hfresh hperform).2.void hs.ledger (hissued hdrawn) fun hsame => hfresh ?_
          exact Option.some.inj hsame ▸ hdrawn
        | _ => cases hclaims
      · cases event with
        | force =>
          exact ((forceTermination_effect hpossible hperform).2 cycleId hforces).void hs.ledger
            (hissued hdrawn) (Option.some_ne_none token).symm
        | _ => cases hforces

/-- A claim is answered once: after an answer that has changed something, a later claim of the cycle or a
forced end of its Task, no answer to it changes anything. -/
theorem claim_answered_once (h : Steps Happens {} events s) (hstep : Happens s event t)
    (hchanges : t ≠ s) (hends : event.ends s cycleId token)
    (hlater : Steps Happens t events' u) (hanswers : event'.answers = some (cycleId, token))
    (hagain : Happens u event' v) : v = u := by
  have hs := run_sound sound_empty h
  have ht := (happens_effect hs hstep).sound hs
  have hvoid := run_related (R := fun s t => Void s cycleId token → Void t cycleId token)
      (fun _ => id) (fun _ _ _ hst htu => htu ∘ hst)
    (fun _ _ hs heffect => heffect.move.void hs.ledger) ht hlater
  exact (hvoid (void_of_ended hs hstep hchanges hends)).idle hanswers hagain

/-! ### Wake-ups -/

/-- The Goals that a cycle has woken. -/
def wokenBy (s : State) (cycleId : CycleId) : List GoalId :=
    (s.triggers.filter (·.sourceCycleId = cycleId)).map (·.goalId)

/-- The verdict of a cycle wakes nobody in the name of another. -/
theorem wokenBy_settle (s : State) (cycle : Cycle) (draw : GoalId → Nat) (now : Int)
    {source : CycleId} (hother : source ≠ cycle.id) :
    wokenBy (settle cycle draw now s) source = wokenBy s source := by
  show ((s.triggers ++ _).filter _).map _ = _
  rw [List.filter_append, List.map_append, wokenBy]
  refine (congrArg (_ ++ ·) (List.map_eq_nil_iff.mpr
    (List.filter_eq_nil_iff.mpr fun trigger hnew => ?_))).trans (List.append_nil _)
  obtain ⟨child, -, rfl⟩ := List.mem_map.mp hnew
  simpa using hother.symm

/-- A cycle wakes each child of its Goal with its verdict. -/
theorem wokenBy_settled (hs : Inv s) {cycle cycle' : Cycle} (hrow : Rewrites s cycle cycle')
    (draw : GoalId → Nat) (now : Int) :
    wokenBy (settle cycle' draw now s) cycle.id = childrenOf s cycle.goalId := by
  have hnone : ∀ trigger ∈ s.triggers, trigger.sourceCycleId ≠ cycle.id := by
    intro trigger htrigger hsource
    obtain ⟨source, hmem, hid, hverdict⟩ := hs.woken trigger htrigger
    rw [hs.eq_of_id hmem hrow.mem (hid.trans hsource)] at hverdict
    exact hverdict hrow.opened
  have hall : ((childrenOf s cycle.goalId).filter fun child => !s.triggers.any fun trigger =>
      trigger.goalId = child && trigger.sourceCycleId = cycle.id) = childrenOf s cycle.goalId := by
    refine List.filter_eq_self.mpr fun child _ => ?_
    rw [Bool.not_eq_true', List.any_eq_false]
    intro trigger htrigger
    simp [hnone trigger htrigger]
  have hold : s.triggers.filter (·.sourceCycleId = cycle.id) = [] :=
      List.filter_eq_nil_iff.mpr fun trigger htrigger => by simpa using hnone trigger htrigger
  show ((s.triggers ++
      ((childrenOf s cycle'.goalId).filter fun child => !s.triggers.any fun trigger =>
      trigger.goalId = child && trigger.sourceCycleId = cycle'.id).map _).filter _).map _ = _
  rw [hrow.same.goalId, hrow.same.id, hall, List.filter_append, hold, List.nil_append, List.filter_map, List.map_map]
  simp [Function.comp_def]

theorem wokenBy_consume (s : State) (trigger : Trigger) (cycleId source : CycleId) :
    ((consume trigger cycleId s.triggers).filter (·.sourceCycleId = source)).map (·.goalId) = wokenBy s source := by
  rw [consume, List.filter_map, List.map_map, wokenBy]
  have hsource :
      ∀ row : Trigger, (if row.goalId = trigger.goalId ∧ row.sourceCycleId = trigger.sourceCycleId
      then {row with consumedCycleId := some cycleId} else row).sourceCycleId = row.sourceCycleId :=
    fun row => by split <;> rfl
  have hgoal :
      ∀ row : Trigger, (if row.goalId = trigger.goalId ∧ row.sourceCycleId = trigger.sourceCycleId
      then {row with consumedCycleId := some cycleId} else row).goalId = row.goalId :=
    fun row => by split <;> rfl
  simp only [Function.comp_def, hsource, hgoal]

/-- Whom a decided cycle has woken stays as it was. -/
theorem Move.woken (h : Move s t) (hs : Inv s) {cycle : Cycle} (hmem : cycle ∈ s.cycles)
    (hverdict : cycle.verdict ≠ none) :
    wokenBy t cycle.id = wokenBy s cycle.id := by
  cases h with
  | keeps | task | revises | claims => rfl
  | @settles _ old new draw now hrow =>
    refine wokenBy_settle s new draw now fun hid => hverdict ?_
    rw [hs.eq_of_id hmem hrow.mem (hid.trans hrow.same.id), hrow.opened]
  | @opens _ _ _ trigger =>
    cases trigger with
    | none => rfl
    | some trigger => exact wokenBy_consume s trigger _ cycle.id

/-- A step that gives a cycle its verdict wakes the children that the Goal then has. -/
theorem Move.wakes (h : Move s t) (hs : Inv s) {cycle cycle' : Cycle} (hmem : cycle ∈ s.cycles)
    (hopen : cycle.verdict = none) (hmem' : cycle' ∈ t.cycles)
    (hid : cycle'.id = cycle.id) (hverdict : cycle'.verdict ≠ none) :
    wokenBy t cycle.id = childrenOf s cycle.goalId := by
  have hold : cycle' ∉ s.cycles := fun hkept => hverdict (hs.eq_of_id hkept hmem hid ▸ hopen)
  have hrewritten : ∀ {old new : Cycle}, Rewrites s old new → cycle' ∈ (putCycle new s).cycles →
      cycle' = new ∧ cycle = old := fun {old new} hrow hput => by
    obtain rfl | ⟨hkept, -⟩ := (hrow.mem_iff hs).mp hput
    · exact ⟨rfl, hs.eq_of_id hmem hrow.mem (hid.symm.trans hrow.same.id)⟩
    · exact absurd hkept hold
  cases h with
  | keeps | task => exact absurd hmem' hold
  | revises _ hrow hnew => exact absurd ((hrewritten hrow hmem').1 ▸ hnew) hverdict
  | claims _ hrow hnew => exact absurd ((hrewritten hrow hmem').1 ▸ hnew) hverdict
  | settles _ draw now hrow =>
    obtain ⟨-, rfl⟩ := hrewritten hrow hmem'
    exact wokenBy_settled hs hrow draw now
  | opens =>
    obtain hkept | hnew := List.mem_append.mp hmem'
    · exact absurd hkept hold
    · rw [List.mem_singleton.mp hnew] at hverdict
      exact absurd rfl hverdict

/-- A consumed wake-up stays as it is. -/
theorem Move.consumed (h : Move s t) (hs : Inv s) {trigger : Trigger} (hmem : trigger ∈ s.triggers)
    (hconsumed : trigger.consumedCycleId ≠ none) :
    trigger ∈ t.triggers := by
  cases h with
  | keeps | task | revises | claims => exact hmem
  | settles => exact List.mem_append_left _ hmem
  | @opens _ _ _ started _ _ _ _ _ htrigger =>
    cases started with
    | none => exact hmem
    | some started =>
      obtain ⟨hstarted, -, hnone⟩ := htrigger started rfl
      exact (hs.mem_consume hstarted).mpr (.inl ⟨hmem, fun hsame => hconsumed (hsame ▸ hnone)⟩)

/-- A verdict wakes each child that the Goal has then, once and for all; each wake-up starts at most one
cycle, and each cycle that a wake-up starts has its own. -/
theorem children_woken_once (h : Steps Happens {} events s) (hstep : Happens s event t)
    (hlater : Steps Happens t events' u) :
    (∀ cycle ∈ s.cycles, cycle.verdict = none → ∀ cycle' ∈ t.cycles, cycle'.id = cycle.id → cycle'.verdict ≠ none →
      wokenBy u cycle.id = childrenOf s cycle.goalId ∧ (childrenOf s cycle.goalId).Nodup) ∧
    (∀ trigger ∈ t.triggers, ∀ cycleId, trigger.consumedCycleId = some cycleId → trigger ∈ u.triggers ∧
      ∃ cycle ∈ t.cycles, cycle.id = cycleId ∧ cycle.goalId = trigger.goalId ∧
      cycle.triggerKind = .relational ∧ cycle.sourceCycleId = some trigger.sourceCycleId) ∧
    ∀ cycle ∈ t.cycles, cycle.triggerKind = .relational → ∃! trigger, trigger ∈ t.triggers ∧
        trigger.consumedCycleId = some cycle.id := by
  have hs := run_sound sound_empty h
  have heffect := happens_effect hs hstep
  have ht := heffect.sound hs
  refine ⟨fun cycle hmem hopen cycle' hmem' hid hverdict => ?_,
    fun trigger hmem cycleId hconsumed => ?_, fun cycle hmem hkind => ?_⟩
  · have hdecided := run_related (R := fun s t => ∀ cycle ∈ s.cycles, cycle.verdict ≠ none →
        cycle ∈ t.cycles ∧ wokenBy t cycle.id = wokenBy s cycle.id)
      (fun _ _ hmem _ => ⟨hmem, rfl⟩) (fun _ _ _ hst htu cycle hmem hverdict => by
        obtain ⟨hmem, hsame⟩ := hst cycle hmem hverdict
        obtain ⟨hmem, hsame'⟩ := htu cycle hmem hverdict
        exact ⟨hmem, hsame'.trans hsame⟩)
      (fun _ _ hs heffect _ hmem hverdict => ⟨heffect.move.decided hmem hverdict hs.ledger,
        heffect.move.woken hs.ledger hmem hverdict⟩) ht hlater
    have hlast := (hdecided cycle' hmem' hverdict).2
    rw [hid, heffect.move.wakes hs.ledger hmem hopen hmem' hid hverdict] at hlast
    exact ⟨hlast, nodup_childrenOf hs.forest.ids cycle.goalId⟩
  · have hkept := run_related (R := fun s t => ∀ trigger ∈ s.triggers,
        trigger.consumedCycleId ≠ none → trigger ∈ t.triggers) (fun _ _ hmem _ => hmem)
      (fun _ _ _ hst htu trigger hmem hconsumed => htu trigger (hst trigger hmem hconsumed) hconsumed)
      (fun _ _ hs heffect _ hmem hconsumed => heffect.move.consumed hs.ledger hmem hconsumed) ht hlater
    exact ⟨hkept trigger hmem (hconsumed ▸ Option.some_ne_none cycleId),
      ht.ledger.consumed trigger hmem cycleId hconsumed⟩
  · obtain ⟨trigger, htrigger, hgoal, hsource, hconsumed⟩ := ht.ledger.relational cycle hmem hkind
    refine ⟨trigger, ⟨htrigger, hconsumed⟩, fun other hother => ?_⟩
    obtain ⟨cycle', hmem', hid, hgoal', -, hsource'⟩ := ht.ledger.consumed other hother.1 cycle.id hother.2
    obtain rfl := ht.ledger.eq_of_id hmem' hmem hid
    exact List.inj_on_of_nodup_map ht.ledger.sources hother.1 htrigger
      (Prod.ext (hgoal'.symm.trans hgoal.symm) (Option.some.inj (hsource'.symm.trans hsource)))

/-! ### The hierarchy -/

/-- A Goal that another hangs under is not deleted. -/
theorem Effect.live (h : Effect s t) (hs : Forest s) {id : GoalId} (hlive : Live s id)
    (hchildren : childrenOf s id ≠ []) : Live t id := by
  obtain ⟨-, hgoals⟩ := h
  suffices hkept : ∀ goals, Regoal s goals → ∃ row ∈ goals, row.id = id ∧ row.deleted = false from hkept _ hgoals
  intro goals hgoals
  obtain ⟨row, hrow, rfl, hrowLive⟩ := hlive
  have hput : ∀ {held goal : Goal}, held ∈ s.goals → goal.id = held.id → (row.id = held.id → goal.deleted = false) →
      ∃ row' ∈ (putGoal goal s).goals, row'.id = row.id ∧ row'.deleted = false := fun {held goal} hheld hid hgoal => by
    by_cases hsame : row.id = held.id
    · exact ⟨goal, (mem_put hheld hid).mpr (.inl rfl), hid.trans hsame.symm, hgoal hsame⟩
    · exact ⟨row, (mem_put hheld hid).mpr (.inr ⟨hrow, hsame⟩), rfl, hrowLive⟩
  cases hgoals with
  | keeps => exact ⟨row, hrow, rfl, hrowLive⟩
  | writes hheld hid _ hdeleted =>
    exact hput hheld hid fun hsame => hdeleted.trans (hs.eq_of_id hrow hheld hsame ▸ hrowLive)
  | deletes hheld hid _ _ _ hnone => exact hput hheld hid fun hsame => absurd (hsame ▸ hnone) hchildren
  | adds => exact ⟨row, List.mem_append_left _ hrow, rfl, hrowLive⟩

/-- No Goal is ever above itself, `_assert_parent` ends and accepts just the live parents that are not below
the Goal, and no Goal is deleted above a live one. -/
theorem hierarchy (h : Steps Happens {} events s) :
    Acyclic (up s) ∧
    (∀ id parent, assertParent s id parent = true ↔ ∀ p, parent = some p → Live s p ∧ ¬AtOrAbove (up s) p id) ∧
    ∀ event t id, Happens s event t → Live s id → childrenOf s id ≠ [] → Live t id := by
  have hs := run_sound sound_empty h
  exact ⟨hs.forest.acyclic, fun id parent => hs.forest.assertParent_iff, fun event t id hstep hlive
    hchildren => (happens_effect hs hstep).live hs.forest hlive hchildren⟩

/-! ### Versions -/

/-- Every row is as it was, or has a later version. -/
def Newer (s t : State) : Prop := ∀ held ∈ s.goals, ∃ row ∈ t.goals, row.id = held.id ∧
    (row = held ∨ held.revision < row.revision)

theorem Newer.refl (s : State) : Newer s s := fun held hmem => ⟨held, hmem, rfl, .inl rfl⟩

theorem Newer.trans (h : Newer s t) (h' : Newer t u) : Newer s u := by
  intro held hmem
  obtain ⟨row, hrow, hid, hnewer⟩ := h held hmem
  obtain ⟨row', hrow', hid', hnewer'⟩ := h' row hrow
  refine ⟨row', hrow', hid'.trans hid, ?_⟩
  obtain rfl | hlt := hnewer
  · exact hnewer'
  · obtain rfl | hlt' := hnewer'
    · exact .inr hlt
    · exact .inr (hlt.trans hlt')

/-- A Goal is written with a higher revision. -/
theorem newer_put (hs : Forest s) {held goal : Goal} (hheld : held ∈ s.goals)
    (hid : goal.id = held.id) (hrevision : held.revision < goal.revision) :
    Newer s (putGoal goal s) := by
  intro row hrow
  by_cases hsame : row.id = held.id
  · obtain rfl := hs.eq_of_id hrow hheld hsame
    exact ⟨goal, (mem_put hheld hid).mpr (.inl rfl), hid, .inr hrevision⟩
  · exact ⟨row, (mem_put hheld hid).mpr (.inr ⟨hrow, hsame⟩), rfl, .inl rfl⟩

/-- After a command every Goal is the same row or has a higher revision. -/
theorem Effect.newer (h : Effect s t) (hs : Forest s) : Newer s t := by
  obtain ⟨-, hgoals⟩ := h
  suffices hnewer : ∀ goals, Regoal s goals → ∀ held ∈ s.goals, ∃ row ∈ goals, row.id = held.id ∧
      (row = held ∨ held.revision < row.revision) from hnewer _ hgoals
  intro goals hgoals
  cases hgoals with
  | keeps => exact Newer.refl s
  | writes hheld hid hrevision => exact newer_put hs hheld hid hrevision
  | deletes hheld hid hrevision => exact newer_put hs hheld hid hrevision
  | adds => exact fun held hmem => ⟨held, List.mem_append_left _ hmem, rfl, .inl rfl⟩

/-- The Goal that a command is for, with the version that it names. -/
def Event.expects : Event → Option (GoalId × Nat)
  | .update held expectedRevision _ _ => some (held.id, expectedRevision)
  | .pause held expectedRevision => some (held.id, expectedRevision)
  | .resume held expectedRevision _ _ => some (held.id, expectedRevision)
  | .complete held expectedRevision _ _ => some (held.id, expectedRevision)
  | .runNow held expectedRevision _ _ => some (held.id, expectedRevision)
  | _ => none

/-- A command that names the revision it has read goes on where that is the revision of the row. -/
theorem current_iff {held : Goal} {expectedRevision : Nat} : current s held expectedRevision =
    true ↔ (goal? s held.id).isSome = true ∧ held.revision = expectedRevision := by
  rw [current, Bool.and_eq_true, decide_eq_true_eq]

/-- Such a command writes the Goal only where the row is still the one that was read. -/
theorem flush_current {held goal : Goal} {expectedRevision : Nat} (hheld : holds s held = true)
    (hcurrent : current s held expectedRevision = true)
    (hgoals : u.goals = s.goals) (h : flush held goal u = some t) :
    t.goals = s.goals ∨ held ∈ s.goals ∧ held.revision = expectedRevision := by
  obtain rfl | ⟨hmem, -⟩ := flush_cases hheld hgoals h
  · exact .inl hgoals
  · exact .inr ⟨hmem, (current_iff.mp hcurrent).2⟩

/-- A command writes the row that has the version that it names, or none. -/
theorem command_cases (hs : Sound s) {goalId : GoalId} {revision : Nat}
    (hexpects : event.expects = some (goalId, revision)) (h : Happens s event t) :
    t.goals = s.goals ∨ ∃ row ∈ s.goals, row.id = goalId ∧ row.revision = revision := by
  rw [Happens, Executes, apply] at h
  split at h
  case isFalse => cases h
  case isTrue hpossible =>
    obtain rfl := Option.some.inj h
    cases hperform : perform s event with
    | none => exact .inl rfl
    | some u =>
      rw [Option.getD_some]
      cases event with
      | update held =>
        obtain ⟨rfl, rfl⟩ := Prod.mk.inj (Option.some.inj hexpects)
        simp only [perform, update, Option.bind_eq_bind, Option.bind_eq_some_iff,
          Option.guard_eq_some', exists_const, Bool.and_eq_true] at hperform
        obtain ⟨⟨hcurrent, -⟩, -, -, -, hperform⟩ := hperform
        split at hperform
        · exact .inr ⟨held, (revise_eq_some hpossible rfl hperform).1, rfl, (current_iff.mp hcurrent).2⟩
        · exact (flush_current hpossible hcurrent rfl hperform).imp_right fun hrow => ⟨held, hrow.1, rfl, hrow.2⟩
      | pause held =>
        obtain ⟨rfl, rfl⟩ := Prod.mk.inj (Option.some.inj hexpects)
        simp only [perform, pause, Option.bind_eq_bind, Option.bind_eq_some_iff,
          Option.guard_eq_some', exists_const, Bool.and_eq_true] at hperform
        exact (flush_current hpossible hperform.1.1 rfl hperform.2).imp_right fun hrow => ⟨held, hrow.1, rfl, hrow.2⟩
      | resume held =>
        obtain ⟨rfl, rfl⟩ := Prod.mk.inj (Option.some.inj hexpects)
        simp only [perform, resume, Option.bind_eq_bind, Option.bind_eq_some_iff,
          Option.guard_eq_some', exists_const, Bool.and_eq_true] at hperform
        exact (flush_current hpossible hperform.1.1 (resetFailedJudgement_move hs.ledger held.id).2
          hperform.2).imp_right fun hrow => ⟨held, hrow.1, rfl, hrow.2⟩
      | complete held =>
        obtain ⟨rfl, rfl⟩ := Prod.mk.inj (Option.some.inj hexpects)
        simp only [perform, complete, Option.bind_eq_bind, Option.bind_eq_some_iff,
          Option.guard_eq_some', exists_const] at hperform
        refine (flush_current hpossible hperform.1 ?_ hperform.2).imp_right fun hrow => ⟨held, hrow.1, rfl, hrow.2⟩
        split
        case h_1 => rfl
        case h_2 => split <;> rfl
      | runNow held =>
        obtain ⟨rfl, rfl⟩ := Prod.mk.inj (Option.some.inj hexpects)
        simp only [perform, runNow, Option.bind_eq_bind, Option.bind_eq_some_iff,
          Option.guard_eq_some', exists_const, Bool.and_eq_true] at hperform
        refine (flush_current hpossible hperform.1.1.1 ?_ hperform.2.2).imp_right fun hrow =>
          ⟨held, hrow.1, rfl, hrow.2⟩
        split
        · exact (resetFailedJudgement_move hs.ledger held.id).2
        · rfl
      | _ => cases hexpects

/-- A Goal has each version once, so that a command that names the version which was read writes the Goal
only where it is still the row that was read. The row is that of `Goal`, without `memory_item_id`. -/
theorem command_revision (h : Steps Happens {} events s) {row : Goal} (hrow : row ∈ s.goals)
    (hlater : Steps Happens s events' t) :
    holds t row = true ∧ ∀ event u, event.expects = some (row.id, row.revision) →
        Happens t event u → u.goals ≠ t.goals → row ∈ t.goals := by
  have hs := run_sound sound_empty h
  have ht := run_sound hs hlater
  obtain ⟨row', hrow', hid, hnewer⟩ := run_related Newer.refl (fun _ _ _ => Newer.trans)
    (fun _ _ hs heffect => heffect.newer hs.forest) hs hlater row hrow
  refine ⟨?_, fun event u hexpects hhappens hwrites => ?_⟩
  · rw [holds, ← hid, ht.forest.row? hrow', Option.any_some]
    simpa using hnewer
  · obtain hsame | ⟨written, hwritten, hwrittenId, hrevision⟩ := command_cases ht hexpects hhappens
    · exact absurd hsame hwrites
    · obtain rfl := ht.forest.eq_of_id hwritten hrow' (hwrittenId.trans hid.symm)
      obtain rfl | hlt := hnewer
      · exact hrow'
      · exact absurd hrevision hlt.ne'

end Runs

/-! A Goal with a child: its first cycle is judged, and wakes the child. -/

def after (s : State) (events : List Event) : State := (events.foldlM apply s).getD s

theorem steps_after {s : State} {events : List Event} (h : (events.foldlM apply s).isSome = true) :
    Steps Happens s events (after s events) := by
  obtain ⟨t, ht⟩ := Option.isSome_iff_exists.mp h
  refine .of_foldlM ?_
  rw [after, ht, Option.getD_some]

def chapter (id : GoalId) (parent : Option GoalId) : Goal :=
  {id, agentId := 7, parentGoalId := parent,
    cycleDelaySeconds := if parent.isNone then some 60 else none, scheduleEnabled := false,
    content := 0, status := .active,
    nextCycleAt := if parent.isNone then some 0 else none, pauseReason := none}

def created : List Event := [.create (chapter 1 none) true 0, .insert (chapter 1 none),
    .create (chapter 2 (some 1)) true 0, .insert (chapter 2 (some 1))]

def begun : State := after {} created

/-- The row of the first Goal. -/
def first (s : State) : Goal := (row? s 1).getD (chapter 1 none)

def worked : List Event := [.start (first begun) false ⟨true, true, true, none, true⟩ 10 20 0,
    .task 20 true, .claim 10 (first begun) 5 3 id 4]

def claimed : State := after begun worked

def answer : Event := .finish 10 (first claimed) 5 ⟨.continues, "not yet", true, "a chapter", []⟩
    (first claimed).revision true true id 6

def judged : State := after claimed [answer]

def late : Event := .fail 10 (first judged) 5 "late" id 7

/-- What the rows of the sample are, computed. -/
theorem sampled : (created.foldlM apply {}).isSome = true ∧
    (worked.foldlM apply begun).isSome = true ∧ Happens claimed answer judged ∧ judged ≠ claimed ∧
    Happens judged late (after judged [late]) ∧ first begun ∈ begun.goals ∧ (claimed.cycles.any
      fun cycle => cycle.id = 10 && cycle.goalId = 1 && cycle.verdict = none) = true ∧
    (judged.cycles.any fun cycle => cycle.id = 10 && cycle.verdict.isSome) = true := by decide +kernel

theorem reaches_begun : Steps Happens {} created begun := steps_after sampled.1

theorem reaches_claimed : Steps Happens begun worked claimed := steps_after sampled.2.1

theorem reaches_judged : Happens claimed answer judged := sampled.2.2.1

theorem sample_ledger : (cyclesOf claimed 1).map (·.sequence) = List.range' 1 (cyclesOf claimed 1).length :=
  (cycle_ledger (reaches_begun.append reaches_claimed) (.single reaches_judged)).1 1

theorem sample_answered : after judged [late] = judged :=
  claim_answered_once (reaches_begun.append reaches_claimed) reaches_judged sampled.2.2.2.1
    (.inl rfl) (.nil judged) (by rfl) sampled.2.2.2.2.1

theorem sample_woken : wokenBy judged 10 = childrenOf claimed 1 := by
  obtain ⟨cycle, hmem, hopen⟩ := List.any_eq_true.mp sampled.2.2.2.2.2.2.1
  obtain ⟨cycle', hmem', hverdict⟩ := List.any_eq_true.mp sampled.2.2.2.2.2.2.2
  simp only [Bool.and_eq_true, decide_eq_true_eq] at hopen hverdict
  have hwoken := (children_woken_once (reaches_begun.append reaches_claimed) reaches_judged
      (.nil judged)).1 cycle hmem hopen.2 cycle' hmem'
    (hverdict.1.trans hopen.1.1.symm) (Option.isSome_iff_ne_none.mp hverdict.2)
  rw [hopen.1.1, hopen.1.2] at hwoken
  exact hwoken.1

theorem sample_hierarchy : ¬Above (up claimed) 2 2 := (hierarchy (reaches_begun.append reaches_claimed)).1 2

theorem sample_revision : holds judged (first begun) = true :=
  (command_revision reaches_begun sampled.2.2.2.2.2.1 (reaches_claimed.append (.single reaches_judged))).1

end Galaris.Goals
