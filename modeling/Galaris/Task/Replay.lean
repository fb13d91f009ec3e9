import Galaris.Task.Effects

/-! An admitted run without a checkpoint is not replayed.

The identity of a run is saved before its driver is entered. While no resumable checkpoint
is saved and no result is applied, nobody knows what the driver did, and
`_retry_is_safe` refuses to start it again. Every path of recovery asks it but one:
`_release_cancelled_claim` puts an interrupted EXEC back to DISPATCH, and the next claim
starts the driver again (`no_replay_while_not_released`). -/
namespace Galaris.Tasks

open Transition

/-- The commands of users; an amendment and an answered authorization interrupt a run. -/
def Command.byUser : Command → Bool
  | .cancel | .forceTerminate _ | .pause _ | .resume _ | .preempt _ | .retry _ => true
  | .write (some .interruptExecution) _ | .write (some .recoverExecution) _ => true
  | _ => false

/-- An automatic step, which neither applies a result nor saves a resumable checkpoint. -/
def Command.automatic (C : Settings) (command : Command) : Bool :=
  !command.byUser && match command with
    | .finishRun .. => false
    | .progress _ _ checkpoint _ => checkpoint.all fun checkpoint => !C.resumable checkpoint
    | _ => true

/-- The executor enters EXEC to start a driver, or a worker of another claim than `token` is admitted to it. -/
def Command.startsDriver (token : Nat) : Command → Bool
  | .start => true
  | .activate _ other _ => other != token
  | _ => false

/-- The transaction puts the row back to a phase that is claimed: the worker releases its cancelled
claim in EXEC, or a claim of another phase than DISPATCH fails and is retried. -/
def Command.replays (C : Settings) (record : Record) : Command → Bool
  | .release _ token => decide (record.task.leaseToken = some token) && record.task.status == .exec
  | .fail _ token exc => decide (record.task.leaseToken = some token) && record.task.status != .success &&
      (record.attempt token).any fun attempt =>
      attempt.phase != .dispatch && admitsRetry C attempt.phase exc record.task
  | .recoverExpired now => expired now record.task && record.task.status != .success &&
      record.current.any fun attempt =>
      attempt.phase != .dispatch && admitsRetry C attempt.phase leaseExpired record.task
  | _ => false

/-- A run was admitted under `token`, and nothing that its driver did is known. -/
structure Unrecoverable (C : Settings) (token : Nat) (task : Task) : Prop where
  identity : task.identity.isSome = true
  checkpoint : C.hasResumableRunCheckpoint task = false
  status : task.status = .exec ∨ task.status.terminal = true
  lease : task.leaseToken = none ∨ task.leaseToken = some token

namespace Unrecoverable
variable {C : Settings} {token : Nat} {task task' : Task}

/-- A retry of the execution is never safe. -/
theorem retryIsSafe (h : Unrecoverable C token task) : C.retryIsSafe task .dispatch = false := by
  have hchecked : Settings.retryIsSafe.checkpointed C task = false := by
    unfold Settings.retryIsSafe.checkpointed
    rw [h.checkpoint, h.identity]
    simp
  unfold Settings.retryIsSafe
  rw [hchecked, h.checkpoint]
  repeat' split
  all_goals first | rfl | contradiction

theorem not_scheduled (h : Unrecoverable C token task) : task.status ∉ schedulerPhases := by
  intro hmem
  obtain ⟨hexec, hactive⟩ := scheduled_active hmem
  obtain hstatus | hterminal := h.status
  · exact hexec hstatus
  · rw [hactive] at hterminal
    cases hterminal

theorem not_claimable {now : Nat} (h : Unrecoverable C token task) : claimable now task = false :=
  Bool.eq_false_iff.mpr fun hclaimable => h.not_scheduled (claimable_phase hclaimable).1

theorem not_dispatch (h : Unrecoverable C token task) : task.status ≠ .dispatch := fun hstatus =>
  h.not_scheduled (hstatus ▸ dispatch_scheduled)

theorem startExecution (h : Unrecoverable C token task) : Tasks.startExecution task = none := by
  cases hstart : Tasks.startExecution task with
  | none => rfl
  | some started => exact absurd (startExecution_eq_some.mp hstart).2.1 h.not_dispatch

/-- It stays so under a change that keeps the run and moves the phase to a terminal one at most. -/
theorem congr (h : Unrecoverable C token task) (hidentity : task'.identity = task.identity)
    (hcheckpoint : task'.checkpoint = task.checkpoint)
    (hstatus : task'.status = task.status ∨ task'.status.terminal = true)
    (hlease : task'.leaseToken = task.leaseToken ∨ task'.leaseToken = none) : Unrecoverable C token task' := by
  refine ⟨hidentity ▸ h.identity, ?_, ?_, ?_⟩
  · rw [Settings.hasResumableRunCheckpoint, hcheckpoint]
    exact h.checkpoint
  · obtain hsame | hterminal := hstatus
    · rw [hsame]
      exact h.status
    · exact .inr hterminal
  · obtain hsame | hfree := hlease
    · rw [hsame]
      exact h.lease
    · exact .inl hfree

/-- The policy admits no retry of an execution. -/
theorem admitsRetry (h : Unrecoverable C token task) (exc : Raised) :
    Tasks.admitsRetry C .dispatch exc task = false := by
  have hcounted : Unrecoverable C token task.counted := h.congr rfl rfl (.inl rfl) (.inl rfl)
  have hsafe := hcounted.retryIsSafe
  simp [Tasks.admitsRetry, Settings.canRetry, hsafe]

theorem failClaim {now other : Nat} {phase : TaskStatus} {exc : Raised} {record record' : Record}
    (h : Unrecoverable C token record.task)
    (hphase : record.task.leaseToken = some other → record.task.status ≠ .success → phase ≠ .dispatch →
      Tasks.admitsRetry C phase exc record.task = false)
    (hfail : Tasks.failClaim C now other phase exc record = some record') : Unrecoverable C token record'.task := by
  cases failClaim_cases hfail with
  | stale _ => exact h
  | success _ _ => exact h.congr rfl rfl (.inl rfl) (.inr rfl)
  | retry htoken hstatus hretry =>
    by_cases hdispatch : phase = .dispatch
    · rw [hdispatch, h.admitsRetry] at hretry
      cases hretry
    · rw [hphase htoken hstatus hdispatch] at hretry
      cases hretry
  | abandon _ _ _ => exact h.congr rfl rfl (.inr rfl) (.inr rfl)

/-- An automatic transaction does not make the Task claimable again, unless it replays it. -/
theorem step {record record' : Record} {command : Command} (h : Unrecoverable C token record.task)
    (hautomatic : command.automatic C = true) (hreplays : command.replays C record = false)
    (happly : command.apply C record = some record') : Unrecoverable C token record'.task := by
  cases command with
  | claim now other =>
    obtain ⟨_, rfl⟩ := Record.insert_eq_some.mp happly
    obtain hsame | ⟨hclaimable, _⟩ := claim_cases C now other record
    · rw [hsame]
      exact h
    · exact absurd hclaimable (by simp [h.not_claimable])
  | claimInline now other =>
    obtain ⟨_, rfl⟩ := Record.insert_eq_some.mp happly
    obtain hsame | ⟨⟨hdispatch, _⟩, _⟩ := claimInline_cases C now other record
    · rw [hsame]
      exact h
    · exact absurd hdispatch h.not_dispatch
  | deferClaim now until' error =>
    cases happly
    obtain hsame | ⟨hclaimable, _⟩ := deferClaim_cases now until' error record
    · rw [hsame]
      exact h
    · exact absurd hclaimable (by simp [h.not_claimable])
  | releaseUnstarted now other =>
    cases happly
    obtain hsame | ⟨_, hreleased⟩ := releaseUnstartedClaim_cases C now other record
    · rw [hsame]
      exact h
    · rw [hreleased]
      exact h.congr rfl rfl (.inl rfl) (.inr rfl)
  | renew now other =>
    cases happly
    obtain hsame | ⟨htoken, hrenewed⟩ := renewLease_cases C now other record
    · rw [hsame]
      exact h
    · rw [hrenewed]
      exact h.congr rfl rfl (.inl rfl) (.inl htoken.symm)
  | complete now other =>
    obtain rfl | ⟨_, rfl⟩ := complete_cases happly
    · exact h
    · exact h.congr rfl rfl (.inl rfl) (.inr rfl)
  | fail now other exc =>
    obtain ⟨attempt, hattempt, hfail⟩ := fail_eq_some happly
    refine h.failClaim (fun htoken hstatus hphase => ?_) hfail
    simpa [Command.replays, htoken, hstatus, hattempt, hphase] using hreplays
  | release now other =>
    obtain ⟨_, rfl⟩ | ⟨htoken, rfl⟩ := releaseCancelledClaim_cases happly
    · exact h
    · have hexec : record.task.status ≠ .exec := by simpa [Command.replays, htoken] using hreplays
      exact h.congr rfl rfl (.inl (if_neg hexec)) (.inr rfl)
  | finishInline now other error cancelled =>
    obtain ⟨_, rfl⟩ | ⟨_, _, _, hlease, _, _, hidentity, hcheckpoint, hends⟩ := finishInlineExecution_cases happly
    · exact h
    · refine h.congr hidentity hcheckpoint ?_ (.inr (leaseToken_none hlease))
      obtain ⟨_, hstatus, _⟩ | ⟨_, hstatus, _⟩ := hends
      · exact .inr (hstatus ▸ rfl)
      · exact .inl hstatus
  | recoverOrphan now =>
    obtain ⟨_, rfl⟩ | ⟨_, _, hlease, _, hidentity, hcheckpoint, _, hstatus⟩ := recoverOrphan_cases happly
    · exact h
    · rw [h.retryIsSafe] at hstatus
      exact h.congr hidentity hcheckpoint (.inr (hstatus ▸ rfl)) (.inr (leaseToken_none hlease))
  | recoverExpired now =>
    obtain rfl | ⟨attempt, hcurrent, hexpired, hfail⟩ := recoverExpired_cases happly
    · exact h
    · refine h.failClaim (fun _ hstatus hphase => ?_) hfail
      simpa [Command.replays, hcurrent, hexpired, hstatus, hphase] using hreplays
  | start =>
    obtain ⟨hstart, _⟩ := Record.onTask_eq_some.mp happly
    rw [h.startExecution] at hstart
    cases hstart
  | activate now other fresh =>
    obtain ⟨_, _, rfl⟩ := activateAgentRun_eq_some happly
    exact ⟨rfl, h.checkpoint, h.status, h.lease⟩
  | progress now other checkpoint result =>
    obtain ⟨_, rfl⟩ := persistAgentRunState_eq_some happly
    refine ⟨h.identity, ?_, h.status, h.lease⟩
    cases checkpoint with
    | none => exact h.checkpoint
    | some saved => simpa [Command.automatic, Command.byUser, Settings.hasResumableRunCheckpoint] using hautomatic
  | appendEvent other entry =>
    cases happly
    exact h
  | write event written =>
    obtain ⟨hwrite, _⟩ := Record.onTask_eq_some.mp happly
    have hframe := write_frame hwrite
    refine h.congr hframe.identity hframe.checkpoint ?_ (.inl (leaseToken_congr hframe.lease))
    obtain ⟨_, hstatus⟩ | ⟨moved, rfl, hevent, hmoved⟩ := hframe.status
    · exact .inl hstatus
    · obtain hexec | hterminal := h.status
      · rw [hexec] at hmoved
        obtain hended | rfl | rfl := leaves_exec hmoved
        · exact .inr hended
        · cases hautomatic
        · cases hautomatic
      · rw [terminal_final hterminal hevent] at hmoved
        cases hmoved
  | finishRun result awaits delegated blocked feedback => cases hautomatic
  | _ => cases hautomatic

/-- No automatic transaction starts a driver. -/
theorem starts_no_driver {record record' : Record} {command : Command} (h : Unrecoverable C token record.task)
    (happly : command.apply C record = some record') : command.startsDriver token = false := by
  cases command with
  | start =>
    obtain ⟨hstart, _⟩ := Record.onTask_eq_some.mp happly
    rw [h.startExecution] at hstart
    cases hstart
  | activate now other fresh =>
    have hother := (ownsRun_lease (activateAgentRun_eq_some happly).1).1
    obtain hnone | htoken := h.lease
    · rw [hnone] at hother
      cases hother
    · rw [htoken] at hother
      cases hother
      simp [Command.startsDriver]
  | _ => rfl

end Unrecoverable

/-- A transaction that replays puts the row back to a phase that is claimed. -/
theorem replays_schedules {C : Settings} {token : Nat} {record record' : Record} {command : Command}
    (h : Unrecoverable C token record.task) (hreplays : command.replays C record = true)
    (happly : command.apply C record = some record') : record'.task.status ∈ schedulerPhases := by
  have hretried : ∀ {now other phase exc}, record.task.leaseToken = some other → record.task.status ≠ .success →
      admitsRetry C phase exc record.task = true → failClaim C now other phase exc record = some record' →
      record'.task.status ∈ schedulerPhases := by
    intro now other phase exc htoken hstatus hadmits hfail
    rw [failClaim_retry htoken hstatus hadmits] at hfail
    cases hfail
    show resumePhase phase record.task.status ∈ schedulerPhases
    obtain hexec | hterminal := h.status
    · rw [hexec]
      exact dispatch_scheduled
    · cases herror : record.task.status <;> rw [herror] at hstatus hterminal
      case error => cases phase <;> decide
      case success => exact absurd rfl hstatus
      all_goals cases hterminal
  unfold Command.replays at hreplays
  split at hreplays
  · next now other =>
    simp only [Bool.and_eq_true, decide_eq_true_eq, beq_iff_eq] at hreplays
    obtain ⟨hstale, _⟩ | ⟨_, rfl⟩ := releaseCancelledClaim_cases happly
    · exact absurd hreplays.1 hstale
    · rw [if_pos hreplays.2]
      exact dispatch_scheduled
  · next now other exc =>
    obtain ⟨attempt, hattempt, hfail⟩ := fail_eq_some happly
    simp only [hattempt, Option.any_some, Bool.and_eq_true, decide_eq_true_eq, bne_iff_ne] at hreplays
    exact hretried hreplays.1.1 hreplays.1.2 hreplays.2.2 hfail
  · next now =>
    simp only [Bool.and_eq_true, Option.any_eq_true, bne_iff_ne] at hreplays
    obtain ⟨⟨hexpired, hstatus⟩, attempt, hcurrent, _, hadmits⟩ := hreplays
    have hfail : recoverExpired C now record = some record' := happly
    simp only [recoverExpired, hcurrent, hexpired, if_true] at hfail
    exact hretried (Record.current_token hcurrent).1 hstatus hadmits hfail
  · cases hreplays

/-! ### Runs -/

/-- From the admission of a run without a resumable checkpoint, no run of automatic steps that meet
`allowed` starts a driver, and none of them leaves the Task to be claimed or started. -/
def NoReplay (C : Settings) (allowed : Record → Command → Prop) : Prop :=
  ∀ now token fresh before admitted commands after,
    before.task.status = .exec → Command.apply C before (.activate now token fresh) = some admitted →
    C.hasResumableRunCheckpoint admitted.task = false →
    RunsWhile C (fun record command => command.automatic C = true ∧ allowed record command) admitted commands after →
    (∀ command ∈ commands, command.startsDriver token = false) ∧
      (∀ now, claimable now after.task = false) ∧ startExecution after.task = none

/-- No automatic step replays the run, as long as no worker releases its claim in EXEC and no claim
of another phase fails with a retry; and such a step puts the Task back to be claimed. -/
theorem no_replay_while_not_released (C : Settings) :
    NoReplay C (fun record command => command.replays C record = false) ∧
      ∀ (token : Nat) (record : Record) (command : Command) (record' : Record), Unrecoverable C token record.task →
        command.replays C record = true → command.apply C record = some record' →
        record'.task.status ∈ schedulerPhases := by
  refine ⟨?_, fun token record command record' => replays_schedules⟩
  intro now token fresh before admitted commands after hexec hadmitted hcheckpoint hrun
  obtain ⟨howns, _, rfl⟩ := activateAgentRun_eq_some hadmitted
  have hstart : Unrecoverable C token {before.task with identity := some (requestRunId fresh before.task)} :=
    ⟨rfl, hcheckpoint, .inl hexec, .inr (ownsRun_lease howns).1⟩
  have hstep : ∀ record command record', Unrecoverable C token record.task →
      Guarded (Executes (Command.apply C))
      (fun record command => command.automatic C = true ∧ command.replays C record = false)
        record command record' → Unrecoverable C token record'.task :=
    fun record command record' h hguarded => h.step hguarded.1.1 hguarded.1.2 hguarded.2
  have hafter := hrun.invariant (P := fun record => Unrecoverable C token record.task) hstep hstart
  refine ⟨?_, fun now => hafter.not_claimable, hafter.startExecution⟩
  exact hrun.labels (P := fun record => Unrecoverable C token record.task) hstep
    (fun record command record' h hguarded => h.starts_no_driver hguarded.2) hstart

/-- The run of a Task whose worker is stopped: it releases its claim, and the Task is claimed and
started again. -/
def stoppedRun : List Command := [.release 20 7, .claim 30 8, .start]

theorem stopped_run_is_replayed : ¬NoReplay .shipped fun _ _ => True := by
  intro hno
  have hrun : RunsWhile .shipped (fun record command => command.automatic .shipped = true ∧ True)
      ⟨{status := .exec, lease := some ⟨7, 120⟩, attemptCount := 1, identity := some 5},
        [{number := 1, phase := .dispatch, token := 7}]⟩ stoppedRun _ :=
    .cons ⟨⟨rfl, trivial⟩, rfl⟩ (.cons ⟨⟨rfl, trivial⟩, rfl⟩ (.single ⟨⟨rfl, trivial⟩, rfl⟩))
  have hstarts := (hno 10 7 5 ⟨{status := .exec, lease := some ⟨7, 120⟩, attemptCount := 1},
    [{number := 1, phase := .dispatch, token := 7}]⟩ _ stoppedRun _ rfl (by decide) (by decide) hrun).1
  exact absurd (hstarts .start (by decide)) (by decide)

end Galaris.Tasks
