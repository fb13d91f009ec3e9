import Galaris.Task.Ledger

/-! The commands that end a Task.

An active Task ends by the outcome of a run, or of a service that writes it, and by the
commands here (`Command.ends`): a cancellation, a forced end, a claim that fails without
another attempt, an inline run that fails. No other command ends it (`active_kept`). -/
namespace Galaris.Tasks

/-- The command ends the active Task, whatever its run produced. -/
def Command.ends (C : Settings) (record : Record) : Command → Bool
  | .cancel | .forceTerminate _ => true
  | .fail _ token exc => decide (record.task.leaseToken = some token) &&
      (record.attempt token).any fun attempt => !admitsRetry C attempt.phase exc record.task
  | .recoverExpired now => expired now record.task &&
      record.current.any fun attempt => !admitsRetry C attempt.phase leaseExpired record.task
  | .recoverOrphan _ => orphaned record.task && !C.retryIsSafe record.task .dispatch
  | .finishInline _ token error cancelled =>
    decide (record.task.leaseToken = some token) && endsInline error cancelled record.task
  | _ => false

/-- The command applies an outcome, or starts the Task again. -/
def Command.rewrites : Command → Bool
  | .write .. | .finishRun .. | .retry _ => true
  | _ => false

theorem failClaim_active {C : Settings} {now token : Nat} {phase : TaskStatus} {exc : Raised} {record record' : Record}
    (hactive : record.task.status.terminal = false)
    (hadmits : record.task.leaseToken = some token → admitsRetry C phase exc record.task = true)
    (h : failClaim C now token phase exc record = some record') : record'.task.status.terminal = false := by
  cases failClaim_cases h with
  | stale _ => exact hactive
  | success _ _ => exact hactive
  | retry _ hstatus _ =>
    show (resumePhase phase record.task.status).terminal = false
    cases hphase : record.task.status <;> rw [hphase] at hactive hstatus
    case success => exact absurd rfl hstatus
    all_goals first | rfl | cases hactive
  | abandon htoken _ hretry =>
    rw [hadmits htoken] at hretry
    cases hretry

/-- An active Task stays active under the commands that do not end it. -/
theorem active_kept {C : Settings} {record record' : Record} {command : Command} (hplain : command.rewrites = false)
    (hends : command.ends C record = false) (hactive : record.task.status.terminal = false)
    (h : command.apply C record = some record') : record'.task.status.terminal = false := by
  cases command with
  | claim now token =>
    obtain ⟨_, rfl⟩ := Record.insert_eq_some.mp h
    obtain hsame | ⟨_, htaken⟩ := claim_cases C now token record
    · rw [hsame]
      exact hactive
    · rw [htaken]
      exact hactive
  | claimInline now token =>
    obtain ⟨_, rfl⟩ := Record.insert_eq_some.mp h
    obtain hsame | ⟨_, htaken⟩ := claimInline_cases C now token record
    · rw [hsame]
      exact hactive
    · rw [htaken]
      exact hactive
  | deferClaim now until' error =>
    cases h
    obtain hsame | ⟨_, hdeferred⟩ := deferClaim_cases now until' error record
    · rw [hsame]
      exact hactive
    · rw [hdeferred]
      exact hactive
  | releaseUnstarted now token =>
    cases h
    obtain hsame | ⟨_, hreleased⟩ := releaseUnstartedClaim_cases C now token record
    · rw [hsame]
      exact hactive
    · rw [hreleased]
      exact hactive
  | renew now token =>
    cases h
    obtain hsame | ⟨_, hrenewed⟩ := renewLease_cases C now token record
    · rw [hsame]
      exact hactive
    · rw [hrenewed]
      exact hactive
  | complete now token =>
    obtain rfl | ⟨_, rfl⟩ := complete_cases h
    · exact hactive
    · exact hactive
  | fail now token exc =>
    obtain ⟨attempt, hattempt, hfail⟩ := fail_eq_some h
    refine failClaim_active hactive (fun htoken => ?_) hfail
    simpa [Command.ends, htoken, hattempt] using hends
  | release now token =>
    obtain ⟨_, rfl⟩ | ⟨_, rfl⟩ := releaseCancelledClaim_cases h
    · exact hactive
    · dsimp only
      split
      · rfl
      · exact hactive
  | finishInline now token error cancelled =>
    obtain ⟨_, rfl⟩ | ⟨htoken, _, _, _, _, _, _, _, hcases⟩ := finishInlineExecution_cases h
    · exact hactive
    · obtain ⟨hended, _⟩ | ⟨_, hstatus, _⟩ := hcases
      · simp [Command.ends, htoken, hended] at hends
      · rw [hstatus]
        exact hactive
  | recoverOrphan now =>
    obtain ⟨_, rfl⟩ | ⟨horphan, _, _, _, _, _, _, hstatus⟩ := recoverOrphan_cases h
    · exact hactive
    · have hsafe : C.retryIsSafe record.task .dispatch = true := by simpa [Command.ends, horphan] using hends
      rw [hstatus, if_pos hsafe]
      rfl
  | recoverExpired now =>
    obtain rfl | ⟨attempt, hcurrent, hexpired, hfail⟩ := recoverExpired_cases h
    · exact hactive
    · refine failClaim_active hactive (fun _ => ?_) hfail
      simpa [Command.ends, hcurrent, hexpired] using hends
  | start =>
    obtain ⟨hstart, _⟩ := Record.onTask_eq_some.mp h
    obtain ⟨_, _, htask⟩ := startExecution_eq_some.mp hstart
    rw [htask]
    rfl
  | activate now token fresh =>
    obtain ⟨_, _, rfl⟩ := activateAgentRun_eq_some h
    exact hactive
  | progress now token checkpoint result =>
    obtain ⟨_, rfl⟩ := persistAgentRunState_eq_some h
    exact hactive
  | appendEvent token entry =>
    cases h
    exact hactive
  | pause here =>
    obtain ⟨hpause, _⟩ := Record.onTask_eq_some.mp h
    obtain ⟨_, hsame⟩ | ⟨_, hheld | ⟨flag, hheld⟩⟩ := pauseTree_eq_some hpause
    · rw [hsame]
      exact hactive
    · rw [hheld, Task.suspend_eq]
      exact hactive
    · rw [hheld, interrupted_terminal, Task.suspend_eq]
      exact hactive
  | resume childDone =>
    obtain ⟨reasons, rfl, _⟩ := resume_eq_some h
    exact hactive
  | preempt here =>
    obtain ⟨hpreempt, _⟩ := Record.onTask_eq_some.mp h
    rw [preempt_eq] at hpreempt
    rw [← Option.some.inj hpreempt, interrupted_terminal]
    cases here <;> exact hactive
  | cancel => cases hends
  | forceTerminate now => cases hends
  | _ => cases hplain

/-- The commands that end an active Task do. -/
theorem ends_terminal {C : Settings} {record record' : Record} {command : Command}
    (hactive : record.task.status.terminal = false) (hends : command.ends C record = true)
    (h : command.apply C record = some record') : record'.task.status.terminal = true := by
  have hsuccess : record.task.status ≠ .success := by
    intro hstatus
    rw [hstatus] at hactive
    cases hactive
  unfold Command.ends at hends
  split at hends
  · obtain ⟨hcancel, _⟩ := Record.onTask_eq_some.mp h
    rw [(requestCancellation_eq_some hcancel).2.1]
    rfl
  · obtain ⟨_, _, _, _, hstatus, _⟩ := forceTerminate_eq_some h
    rw [hstatus, if_neg (by simp [hactive])]
    rfl
  · next now token exc =>
    obtain ⟨attempt, hattempt, hfail⟩ := fail_eq_some h
    simp only [hattempt, Option.any_some, Bool.and_eq_true, decide_eq_true_eq, Bool.not_eq_true'] at hends
    rw [failClaim_abandoned hends.1 hsuccess hends.2] at hfail
    cases hfail
    rfl
  · next now =>
    simp only [Bool.and_eq_true, Option.any_eq_true, Bool.not_eq_true'] at hends
    obtain ⟨hexpired, attempt, hcurrent, hadmits⟩ := hends
    have hfail : recoverExpired C now record = some record' := h
    simp only [recoverExpired, hcurrent, hexpired, if_true] at hfail
    rw [failClaim_abandoned (Record.current_token hcurrent).1 hsuccess hadmits] at hfail
    cases hfail
    rfl
  · simp only [Bool.and_eq_true, Bool.not_eq_true'] at hends
    obtain ⟨hlive, _⟩ | ⟨_, _, _, _, _, _, _, hstatus⟩ := recoverOrphan_cases h
    · rw [hlive] at hends
      cases hends.1
    · rw [hstatus, hends.2]
      rfl
  · next now token error cancelled =>
    simp only [Bool.and_eq_true, decide_eq_true_eq] at hends
    obtain ⟨hstale, _⟩ | ⟨_, _, _, _, _, _, _, _, hcases⟩ := finishInlineExecution_cases h
    · exact absurd hends.1 hstale
    · obtain ⟨_, hstatus, _⟩ | ⟨hnot, _⟩ := hcases
      · rw [hstatus]
        rfl
      · rw [hends.2] at hnot
        cases hnot
  · cases hends

end Galaris.Tasks
