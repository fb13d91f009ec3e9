import Galaris.Task.Effects

/-! A cancelled Task and the worker that still has its lease.

A cancellation ends the Task at once, and leaves the lease to the worker until its
heartbeat sees the flag. The worker, or the recovery of its lease, may finalise the claim
before that: `_fail_claim` reads the ERROR of the cancellation as the provisional error of
its own action, and retries it where the policy admits a retry. A cancelled Task
stays cancelled in exactly the runs in which no such finalisation occurs
(`cancelled_until_retried`). -/
namespace Galaris.Tasks

open Transition

/-- The transaction applies CANCEL or FORCE_TERMINATE. -/
def Command.cancels : Command → Bool
  | .cancel | .forceTerminate _ | .finishInline _ _ _ true => true
  | .write (some .cancel) _ | .write (some .forceTerminate) _ => true
  | _ => false

/-- The explicit retry of a user. -/
def Command.isRetry : Command → Bool
  | .retry _ => true
  | _ => false

/-- The transaction fails the claim that the row is leased to, and the policy admits a retry. -/
def Command.retriesClaim (C : Settings) (record : Record) : Command → Bool
  | .fail _ token exc => decide (record.task.leaseToken = some token) && record.task.status != .success &&
      (record.attempt token).any fun attempt => admitsRetry C attempt.phase exc record.task
  | .recoverExpired now => expired now record.task && record.task.status != .success &&
      record.current.any fun attempt => admitsRetry C attempt.phase leaseExpired record.task
  | _ => false

/-- The Task is in the phase it ended in, and no attempt was scheduled since. -/
structure StillEnded (ended task : Task) : Prop where
  status : task.status = ended.status
  schedule : task.nextAttemptAt = none ∨ task.nextAttemptAt = ended.nextAttemptAt

/-! ### One transaction -/

section
variable {C : Settings} {ended : Task} {record record' : Record}

/-- A failed claim of an ended Task ends it again, unless the policy admits a retry. -/
theorem StillEnded.failClaim {now token : Nat} {phase : TaskStatus} {exc : Raised}
    (hterminal : ended.status.terminal = true)
    (hended : StillEnded ended record.task)
    (hpolicy : record.task.leaseToken = some token → record.task.status ≠ .success →
      admitsRetry C phase exc record.task = false)
    (h : Tasks.failClaim C now token phase exc record = some record') : StillEnded ended record'.task := by
  cases failClaim_cases h with
  | stale _ => exact hended
  | success _ _ => exact ⟨hended.status, .inl rfl⟩
  | retry htoken hstatus hretry => exact absurd (hpolicy htoken hstatus) (by simp [hretry])
  | abandon _ hstatus _ =>
    refine ⟨?_, .inl rfl⟩
    show TaskStatus.error = ended.status
    rw [hended.status] at hstatus
    cases hphase : ended.status <;> rw [hphase] at hterminal hstatus
    case success => exact absurd rfl hstatus
    all_goals cases hterminal

/-- An ended Task is not claimed. -/
theorem not_claimable_of_terminal {now : Nat} {task : Task} (hterminal : task.status.terminal = true) :
    claimable now task = false := by
  refine Bool.eq_false_iff.mpr fun h => ?_
  have hactive := (scheduled_active (claimable_phase h).1).2
  rw [hterminal] at hactive
  cases hactive

/-- No transaction but a retry of the claim or of a user leaves the phase a Task ended in. -/
theorem StillEnded.step {command : Command} (hterminal : ended.status.terminal = true)
    (hended : StillEnded ended record.task)
    (hretry : command.isRetry = false) (hclaim : command.retriesClaim C record = false)
    (h : command.apply C record = some record') : StillEnded ended record'.task := by
  have hstatus : record.task.status.terminal = true := hended.status ▸ hterminal
  have hactive : ∀ status : TaskStatus, status.terminal = false → record.task.status ≠ status := by
    intro status hfalse heq
    rw [heq, hfalse] at hstatus
    cases hstatus
  have hexec := hactive .exec rfl
  cases command with
  | claim now token =>
    obtain ⟨_, rfl⟩ := Record.insert_eq_some.mp h
    obtain hsame | ⟨hclaimable, _⟩ := claim_cases C now token record
    · rw [hsame]
      exact hended
    · exact absurd hclaimable (by simp [not_claimable_of_terminal hstatus])
  | claimInline now token =>
    obtain ⟨_, rfl⟩ := Record.insert_eq_some.mp h
    obtain hsame | ⟨⟨hdispatch, _⟩, _⟩ := claimInline_cases C now token record
    · rw [hsame]
      exact hended
    · exact absurd hdispatch (hactive .dispatch rfl)
  | deferClaim now until' error =>
    cases h
    obtain hsame | ⟨hclaimable, _⟩ := deferClaim_cases now until' error record
    · rw [hsame]
      exact hended
    · exact absurd hclaimable (by simp [not_claimable_of_terminal hstatus])
  | releaseUnstarted now token =>
    cases h
    obtain hsame | ⟨_, hreleased⟩ := releaseUnstartedClaim_cases C now token record
    · rw [hsame]
      exact hended
    · rw [hreleased]
      exact ⟨hended.status, hended.schedule⟩
  | renew now token =>
    cases h
    obtain hsame | ⟨_, hrenewed⟩ := renewLease_cases C now token record
    · rw [hsame]
      exact hended
    · rw [hrenewed]
      exact ⟨hended.status, hended.schedule⟩
  | complete now token =>
    obtain rfl | ⟨_, rfl⟩ := complete_cases h
    · exact hended
    · exact ⟨hended.status, .inl rfl⟩
  | fail now token exc =>
    obtain ⟨attempt, hattempt, hfail⟩ := fail_eq_some h
    refine hended.failClaim hterminal (fun htoken hphase => ?_) hfail
    simpa [Command.retriesClaim, htoken, hphase, hattempt] using hclaim
  | release now token =>
    obtain ⟨_, rfl⟩ | ⟨_, rfl⟩ := releaseCancelledClaim_cases h
    · exact hended
    · exact ⟨(if_neg hexec).trans hended.status, .inl rfl⟩
  | finishInline now token error cancelled =>
    obtain ⟨_, rfl⟩ | ⟨_, _, _, _, hnext, _, _, _, hends⟩ := finishInlineExecution_cases h
    · exact hended
    · obtain ⟨hends, _⟩ | ⟨_, hsame, _⟩ := hends
      · simp [endsInline, hstatus] at hends
      · exact ⟨hsame.trans hended.status, .inl hnext⟩
  | recoverOrphan now =>
    obtain ⟨_, rfl⟩ | ⟨horphan, _⟩ := recoverOrphan_cases h
    · exact hended
    · simp only [orphaned, Bool.and_eq_true, beq_iff_eq] at horphan
      exact absurd horphan.1.1.1 hexec
  | recoverExpired now =>
    obtain rfl | ⟨attempt, hcurrent, hexpired, hfail⟩ := recoverExpired_cases h
    · exact hended
    · refine hended.failClaim hterminal (fun _ hphase => ?_) hfail
      simpa [Command.retriesClaim, hcurrent, hexpired, hphase] using hclaim
  | start =>
    obtain ⟨hstart, _⟩ := Record.onTask_eq_some.mp h
    obtain ⟨_, hdispatch, _⟩ := startExecution_eq_some.mp hstart
    exact absurd hdispatch (hactive .dispatch rfl)
  | activate now token fresh =>
    obtain ⟨_, _, rfl⟩ := activateAgentRun_eq_some h
    exact ⟨hended.status, hended.schedule⟩
  | progress now token checkpoint result =>
    obtain ⟨_, rfl⟩ := persistAgentRunState_eq_some h
    exact ⟨hended.status, hended.schedule⟩
  | appendEvent token entry =>
    cases h
    exact hended
  | finishRun result awaits delegated blocked feedback =>
    obtain ⟨hrun, _⟩ := Record.onTask_eq_some.mp h
    have hframe := finishRun_frame hrun
    obtain hrunning | hsame := hframe.exec
    · exact absurd hrunning hexec
    · exact ⟨hsame.trans hended.status, hframe.nextAttemptAt ▸ hended.schedule⟩
  | write event written =>
    obtain ⟨hwrite, _⟩ := Record.onTask_eq_some.mp h
    have hframe := write_frame hwrite
    obtain ⟨_, hsame⟩ | ⟨moved, _, hevent, hmoved⟩ := hframe.status
    · exact ⟨hsame.trans hended.status, hframe.nextAttemptAt ▸ hended.schedule⟩
    · rw [terminal_final hstatus hevent] at hmoved
      cases hmoved
  | cancel =>
    obtain ⟨hcancel, _⟩ := Record.onTask_eq_some.mp h
    have hcancelled := (requestCancellation_eq_some hcancel).1
    rw [hstatus] at hcancelled
    cases hcancelled
  | forceTerminate now =>
    obtain ⟨_, hnext, _, _, hforced, _⟩ := forceTerminate_eq_some h
    rw [if_pos hstatus] at hforced
    exact ⟨hforced.trans hended.status, .inl hnext⟩
  | pause here =>
    obtain ⟨hpause, _⟩ := Record.onTask_eq_some.mp h
    obtain ⟨_, hsame⟩ | ⟨hpaused, _⟩ := pauseTree_eq_some hpause
    · rw [hsame]
      exact hended
    · rw [hstatus] at hpaused
      cases hpaused
  | resume childDone =>
    obtain ⟨reasons, rfl, _⟩ := resume_eq_some h
    exact ⟨hended.status, hended.schedule⟩
  | preempt here =>
    obtain ⟨hpreempt, _⟩ := Record.onTask_eq_some.mp h
    rw [preempt_eq] at hpreempt
    rw [← Option.some.inj hpreempt]
    refine ⟨?_, ?_⟩
    · cases here <;> exact (if_neg hexec).trans hended.status
    · cases here <;> exact hended.schedule
  | retry event => cases hretry

end

/-- A retry of the claim does leave ERROR, and schedules an attempt. -/
theorem retriesClaim_reopens {C : Settings} {record record' : Record} {command : Command}
    (hended : record.task.status = .error) (hclaim : command.retriesClaim C record = true)
    (h : command.apply C record = some record') :
    record'.task.status ≠ .error ∧ record'.task.nextAttemptAt.isSome = true := by
  have hstatus : record.task.status ≠ .success := by rw [hended]; decide
  have hretried : ∀ {now token phase exc}, record.task.leaseToken = some token →
      admitsRetry C phase exc record.task = true → failClaim C now token phase exc record = some record' →
      record'.task.status ≠ .error ∧ record'.task.nextAttemptAt.isSome = true := by
    intro now token phase exc htoken hadmits hfail
    rw [failClaim_retry htoken hstatus hadmits] at hfail
    cases hfail
    refine ⟨?_, rfl⟩
    show resumePhase phase record.task.status ≠ .error
    rw [hended]
    exact resumePhase_error phase
  unfold Command.retriesClaim at hclaim
  split at hclaim
  · next now token exc =>
    obtain ⟨attempt, hattempt, hfail⟩ := fail_eq_some h
    simp only [hattempt, Option.any_some, Bool.and_eq_true, decide_eq_true_eq] at hclaim
    exact hretried hclaim.1.1 hclaim.2 hfail
  · next now =>
    simp only [Bool.and_eq_true, Option.any_eq_true] at hclaim
    obtain ⟨⟨hexpired, _⟩, attempt, hcurrent, hadmits⟩ := hclaim
    have hfail : recoverExpired C now record = some record' := h
    simp only [recoverExpired, hcurrent, hexpired, if_true] at hfail
    exact hretried (Record.current_token hcurrent).1 hadmits hfail
  · cases hclaim

/-! ### Runs -/

/-- The transaction that cancelled the active Task. -/
structure Cancelled (C : Settings) (command : Command) (before cancelled : Record) : Prop where
  applies : command.cancels = true
  active : before.task.status.terminal = false
  committed : command.apply C before = some cancelled
  ended : cancelled.task.status = .error

/-- Once cancelled, the Task is in ERROR and no attempt is scheduled, in every run whose steps
meet `allowed` and are not retries of a user. -/
def StaysCancelled (C : Settings) (allowed : Record → Command → Prop) : Prop :=
  ∀ command before cancelled commands after, Cancelled C command before cancelled →
    RunsWhile C (fun record command => command.isRetry = false ∧ allowed record command) cancelled commands after →
    after.task.status = .error ∧
      (after.task.nextAttemptAt = none ∨ after.task.nextAttemptAt = cancelled.task.nextAttemptAt)

/-- A Task stays cancelled while no finalisation of its claim is one that the policy retries;
and such a finalisation reopens it. -/
theorem cancelled_until_retried (C : Settings) :
    StaysCancelled C (fun record command => command.retriesClaim C record = false) ∧
      ∀ (command : Command) (cancelled after : Record), cancelled.task.status = .error →
      command.retriesClaim C cancelled = true →
        command.apply C cancelled = some after →
        after.task.status ≠ .error ∧ after.task.nextAttemptAt.isSome = true := by
  refine ⟨?_, fun command cancelled after => retriesClaim_reopens⟩
  intro command before cancelled commands after hcancelled hrun
  have hterminal : cancelled.task.status.terminal = true := by
    rw [hcancelled.ended]
    rfl
  have hafter : StillEnded cancelled.task after.task := by
    refine hrun.invariant (P := fun record => StillEnded cancelled.task record.task) ?_ ⟨rfl, .inr rfl⟩
    intro record command record' hended hstep
    obtain ⟨⟨hretry, hclaim⟩, happly⟩ := hstep
    exact hended.step hterminal hretry hclaim happly
  exact ⟨hafter.status.trans hcancelled.ended, hafter.schedule⟩

/-- A Task that a worker plans. -/
def planning : Record :=
  ⟨{status := .plan, lease := some ⟨7, 120⟩, attemptCount := 1}, [{number := 1, phase := .plan, token := 7}]⟩

/-- The same Task, cancelled by its user before the worker's heartbeat. -/
def cancelledPlanning : Record :=
  {planning with task := {planning.task with
    status := .error
    cancelRequested := true
    lastError := some "cancelled_by_user"
    feedback := some "cancelled_by_user"}}

/-- The planner's save is refused, its action raises, and the cancelled plan is planned again. -/
theorem cancelled_plan_is_planned_again : ¬StaysCancelled .shipped fun _ _ => True := by
  intro hstays
  have hcancelled : Cancelled .shipped .cancel planning cancelledPlanning := ⟨rfl, rfl, by decide, rfl⟩
  have hfails : (Command.apply .shipped cancelledPlanning (.fail 1 7 {text := "ValueError"})).map
      (fun record => record.task.status) = some .plan := by
    decide +kernel
  obtain ⟨after, hafter, hplan⟩ := Option.map_eq_some_iff.mp hfails
  have hended := hstays .cancel planning cancelledPlanning [.fail 1 7 {text := "ValueError"}] after hcancelled
    (.single ⟨⟨rfl, trivial⟩, hafter⟩)
  exact absurd (hplan.symm.trans hended.1) (by decide)

end Galaris.Tasks
