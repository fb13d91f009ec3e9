import Galaris.Task.Endings

/-! The hold of a user on a Task whose execution runs in another process.

A pause puts the running Task back to its resume phase, adds the reason `user`, and asks
the worker to stop. If the worker's action ends first, its outcome no longer applies to the
row, so that the action raises; `_fail_claim` does not retry a held Task, and fails it, and
a resumed one only as the policy allows. The recovery of the lease does the same. In every
run without such a finalisation the hold lasts until it is resumed, and the interrupted
claim ends the Task by the outcome of its run only (`hold_while_not_failed`). -/
namespace Galaris.Tasks

open Transition

/-- The transactions of a running execution, of its finalisation, and of pauses and resumptions. -/
def Command.races : Command → Bool
  | .pause _ | .resume _ | .start | .activate .. | .progress .. | .appendEvent .. | .finishRun .. | .renew ..
  | .complete .. | .fail .. | .release .. | .recoverOrphan _ | .recoverExpired _ | .claim .. | .deferClaim .. => true
  | _ => false

def Command.resumes : Command → Bool
  | .resume _ => true
  | _ => false

/-- The transaction fails for good a claim that a pause holds or asked to stop, or it applies an
outcome to a held row that the pause found in EXEC without a lease. -/
def Command.dropsHold (C : Settings) (record : Record) (command : Command) : Bool :=
  match command with
  | .fail .. | .recoverExpired _ => (record.task.isHeldByUser || record.task.cancelRequested) &&
      !record.task.status.terminal && command.ends C record
  | .finishRun result _ _ _ _ => record.task.isHeldByUser && record.task.status == .exec &&
      result.disposition != .waitingForAuthorization && !waitsForInput result.runId record.task
  | _ => false

/-- Suspended by the user at a phase to resume at; a Task in EXEC is held only when no worker runs it. -/
structure Held (task : Task) : Prop where
  user : PauseReason.user ∈ task.pauseReasons
  active : task.status.terminal = false
  stopped : task.status = .exec → task.lease = none

theorem Held.paused {task : Task} (h : Held task) : task.paused = true := Task.paused_of_held h.user

theorem Held.held {task : Task} (h : Held task) : task.isHeldByUser = true := Task.isPausedFor_iff.mpr h.user

/-- A held Task is not retried. -/
theorem Held.admitsRetry {C : Settings} {phase : TaskStatus} {exc : Raised} {task : Task} (h : Held task) :
    admitsRetry C phase exc task = false := by
  have hheld : task.counted.isHeldByUser = true := h.held
  simp [Tasks.admitsRetry, Settings.canRetry, hheld]

/-- The hold is kept by a change that keeps the phase and the lease. -/
theorem Held.congr {task task' : Task} (h : Held task) (hreasons : task'.pauseReasons = task.pauseReasons)
    (hstatus : task'.status = task.status) (hlease : task'.lease = task.lease ∨ task'.lease = none) : Held task' := by
  refine ⟨hreasons ▸ h.user, hstatus ▸ h.active, fun hexec => ?_⟩
  obtain hsame | hfree := hlease
  · rw [hsame]
    exact h.stopped (hstatus ▸ hexec)
  · exact hfree

/-- A pause holds every active Task. -/
theorem held_of_pause {here : Bool} {task task' : Task} (h : pauseTree here task = some task')
    (hactive : task.status.terminal = false) : Held task' := by
  unfold pauseTree at h
  rw [if_neg (by simp [hactive]), interruptRunningAction_eq, preempt_eq] at h
  have huser : PauseReason.user ∈ (task.suspend .user).pauseReasons := by
    rw [Task.suspend_eq]
    dsimp only
    split
    · next hmem => exact Task.isPausedFor_iff.mp hmem
    · exact List.mem_append_right _ (List.mem_singleton_self _)
  have hstatus : (task.suspend .user).status = task.status := by rw [Task.suspend_eq]
  split at h
  · next hfree =>
    cases h
    refine ⟨huser, hstatus ▸ hactive, fun _ => ?_⟩
    exact Option.isNone_iff_eq_none.mp (Bool.and_eq_true_iff.mp hfree).2
  · rw [← Option.some.inj h]
    refine ⟨?_, ?_, fun hexec => absurd hexec (interrupted_ne_exec _)⟩
    · cases here <;> exact huser
    · rw [interrupted_terminal]
      cases here <;> exact hstatus ▸ hactive

/-! ### One transaction -/

theorem Held.not_claimable {now : Nat} {task : Task} (h : Held task) : claimable now task = false := by
  refine Bool.eq_false_iff.mpr fun hclaimable => ?_
  have hpaused := (claimable_phase hclaimable).2
  rw [h.paused] at hpaused
  cases hpaused

theorem Held.waits {task task' : Task} (h : Held task) (hwaits : Waits task task') : Held task' := by
  refine ⟨hwaits.reasons _ h.user (by decide), ?_, fun hexec => ?_⟩
  · rw [hwaits.status, interrupted_terminal]
    exact h.active
  · exact absurd (hwaits.status ▸ hexec) (interrupted_ne_exec task)

/-- A transaction of the race keeps the hold, unless it is a resumption or one of those that drop it. -/
theorem Held.step {C : Settings} {record record' : Record} {command : Command} (hheld : Held record.task)
    (hraces : command.races = true) (hresumes : command.resumes = false) (hdrops : command.dropsHold C record = false)
    (h : command.apply C record = some record') : Held record'.task := by
  cases command with
  | claim now token =>
    obtain ⟨_, rfl⟩ := Record.insert_eq_some.mp h
    obtain hsame | ⟨hclaimable, _⟩ := claim_cases C now token record
    · rw [hsame]
      exact hheld
    · exact absurd hclaimable (by simp [hheld.not_claimable])
  | deferClaim now until' error =>
    cases h
    obtain hsame | ⟨hclaimable, _⟩ := deferClaim_cases now until' error record
    · rw [hsame]
      exact hheld
    · exact absurd hclaimable (by simp [hheld.not_claimable])
  | renew now token =>
    have hpaused := hheld.paused
    cases h
    unfold renewLease
    cases record.task.lease with
    | none => exact hheld
    | some lease =>
      dsimp only
      rw [if_neg (by simp [hpaused])]
      exact hheld
  | complete now token =>
    obtain rfl | ⟨_, rfl⟩ := complete_cases h
    · exact hheld
    · exact hheld.congr rfl rfl (.inr rfl)
  | fail now token exc =>
    obtain ⟨attempt, hattempt, hfail⟩ := fail_eq_some h
    have hstale : record.task.leaseToken ≠ some token := by
      simpa [Command.dropsHold, Command.ends, hheld.held, hheld.active, hattempt, hheld.admitsRetry] using hdrops
    rw [failClaim_stale hstale] at hfail
    cases hfail
    exact hheld
  | release now token =>
    obtain ⟨_, rfl⟩ | ⟨_, rfl⟩ := releaseCancelledClaim_cases h
    · exact hheld
    · refine ⟨hheld.user, ?_, fun _ => rfl⟩
      dsimp only
      split
      · rfl
      · exact hheld.active
  | recoverOrphan now =>
    obtain ⟨_, rfl⟩ | ⟨horphan, _⟩ := recoverOrphan_cases h
    · exact hheld
    · simp [orphaned, hheld.paused] at horphan
  | recoverExpired now =>
    obtain rfl | ⟨attempt, hcurrent, hexpired, _⟩ := recoverExpired_cases h
    · exact hheld
    · simp [Command.dropsHold, Command.ends, hheld.held, hheld.active, hcurrent, hexpired, hheld.admitsRetry] at hdrops
  | start =>
    obtain ⟨hstart, _⟩ := Record.onTask_eq_some.mp h
    have hpaused := (startExecution_eq_some.mp hstart).1
    rw [hheld.paused] at hpaused
    cases hpaused
  | activate now token fresh =>
    have hpaused := (activateAgentRun_eq_some h).2.1
    rw [hheld.paused] at hpaused
    cases hpaused
  | progress now token checkpoint result =>
    obtain ⟨_, rfl⟩ := persistAgentRunState_eq_some h
    exact hheld.congr rfl rfl (.inl rfl)
  | appendEvent token entry =>
    cases h
    exact hheld
  | finishRun result awaits delegated blocked feedback =>
    obtain ⟨hrun, _⟩ := Record.onTask_eq_some.mp h
    cases finishRun_cases hrun with
    | waits _ hwaits => exact hheld.waits hwaits
    | children _ hnone hexec _ _ _ =>
      simp only [Bool.or_eq_false_iff] at hnone
      simp [Command.dropsHold, hheld.held, hexec, hnone.1, bne, hnone.2] at hdrops
    | outcome _ hnone hexec _ _ _ =>
      simp only [Bool.or_eq_false_iff] at hnone
      simp [Command.dropsHold, hheld.held, hexec, hnone.1, bne, hnone.2] at hdrops
  | pause here =>
    obtain ⟨hpause, _⟩ := Record.onTask_eq_some.mp h
    exact held_of_pause hpause hheld.active
  | resume childDone => cases hresumes
  | _ => cases hraces

/-- The transactions that drop the hold do drop it, and fail the Task that was resumed. -/
theorem dropsHold_drops {C : Settings} {record record' : Record} {command : Command}
    (hdrops : command.dropsHold C record = true) (h : command.apply C record = some record') :
    (record.task.isHeldByUser = true → PauseReason.user ∉ record'.task.pauseReasons) ∧
      (record.task.isHeldByUser = false → record.task.status.terminal = false ∧ record'.task.status = .error) := by
  have hfails : ∀ {now token phase exc}, record.task.leaseToken = some token → record.task.status.terminal = false →
      admitsRetry C phase exc record.task = false → failClaim C now token phase exc record = some record' →
      (record.task.isHeldByUser = true → PauseReason.user ∉ record'.task.pauseReasons) ∧
        (record.task.isHeldByUser = false → record.task.status.terminal = false ∧ record'.task.status = .error) := by
    intro now token phase exc htoken hactive hadmits hfail
    have hsuccess : record.task.status ≠ .success := fun hstatus => by simp [hstatus, TaskStatus.terminal] at hactive
    rw [failClaim_abandoned htoken hsuccess hadmits] at hfail
    cases hfail
    exact ⟨fun _ => List.not_mem_nil, fun _ => ⟨hactive, rfl⟩⟩
  unfold Command.dropsHold at hdrops
  split at hdrops
  · next now token exc =>
    obtain ⟨attempt, hattempt, hfail⟩ := fail_eq_some h
    simp only [Command.ends, hattempt, Option.any_some, Bool.and_eq_true, decide_eq_true_eq,
      Bool.not_eq_true'] at hdrops
    exact hfails hdrops.2.1 hdrops.1.2 hdrops.2.2 hfail
  · next now =>
    simp only [Command.ends, Bool.and_eq_true, Option.any_eq_true, Bool.not_eq_true'] at hdrops
    obtain ⟨⟨_, hactive⟩, hexpired, attempt, hcurrent, hadmits⟩ := hdrops
    have hfail : recoverExpired C now record = some record' := h
    simp only [recoverExpired, hcurrent, hexpired, if_true] at hfail
    exact hfails (Record.current_token hcurrent).1 hactive hadmits hfail
  · next result awaits delegated blocked feedback =>
    obtain ⟨hrun, _⟩ := Record.onTask_eq_some.mp h
    simp only [Bool.and_eq_true, Bool.not_eq_true', bne, beq_iff_eq] at hdrops
    refine ⟨fun _ => ?_, fun hfree => ?_⟩
    · cases finishRun_cases hrun with
      | waits hwaits _ =>
        rw [hdrops.2, hdrops.1.2] at hwaits
        cases hwaits
      | children _ _ _ _ _ hreasons =>
        intro huser
        obtain hawait | hchild := hreasons _ huser
        · cases hawait
        · cases hchild
      | outcome _ _ _ _ _ hreasons =>
        rw [hreasons]
        exact List.not_mem_nil
    · rw [hdrops.1.1.1] at hfree
      cases hfree
  · cases hdrops

/-! ### The interrupted claim -/

/-- While a row is leased to the claim, its cancellation is requested; no other claim has its token. -/
structure Interrupted (token : Nat) (record : Record) : Prop where
  known : (record.attempt token).isSome = true
  requested : record.task.leaseToken = some token → record.task.cancelRequested = true

/-- A pause asks the worker of a leased Task to stop. -/
theorem pauseTree_requests {task task' : Task} (h : pauseTree false task = some task')
    (hactive : task.status.terminal = false)
    (hleased : task.lease.isSome = true) : task'.cancelRequested = true := by
  have hsuspended : (task.suspend .user).lease = task.lease := by rw [Task.suspend_eq]
  rw [pauseTree, if_neg (by simp [hactive]), interruptRunningAction_eq, preempt_eq, hsuspended,
    if_neg (by simpa using Option.isSome_iff_ne_none.mp hleased)] at h
  rw [← Option.some.inj h]
  rfl

/-- No pause takes the request back. -/
theorem pauseTree_requested {here : Bool} {task task' : Task} (h : pauseTree here task = some task')
    (hrequested : task.cancelRequested = true) : task'.cancelRequested = true := by
  have hsuspended : (task.suspend .user).cancelRequested = true := by
    rw [Task.suspend_eq]
    exact hrequested
  unfold pauseTree at h
  split at h
  · rw [← Option.some.inj h]
    exact hrequested
  · rw [interruptRunningAction_eq, preempt_eq] at h
    split at h
    · rw [← Option.some.inj h]
      exact hsuspended
    · rw [← Option.some.inj h]
      cases here with
      | true => exact hsuspended
      | false => rfl

theorem interrupted_of_pause {paused before : Record} {C : Settings} {token : Nat}
    (h : Command.apply C before (.pause false) = some paused) (hactive : before.task.status.terminal = false)
    (hleased : before.task.leaseToken = some token) (hknown : (before.attempt token).isSome = true) :
    Interrupted token paused := by
  obtain ⟨hpause, hattempts⟩ := Record.onTask_eq_some.mp h
  refine ⟨by rw [Record.attempt, hattempts]; exact hknown, fun _ => pauseTree_requests hpause hactive ?_⟩
  cases hlease : before.task.lease with
  | none => simp [Task.leaseToken, hlease] at hleased
  | some lease => rfl

/-- The claim frees the row, or stays asked to stop. -/
theorem Interrupted.step {C : Settings} {token : Nat} {record record' : Record} {command : Command}
    (hinterrupted : Interrupted token record) (hraces : command.races = true)
    (h : command.apply C record = some record') :
    Interrupted token record' := by
  refine ⟨attempt_known (ledger_move h) hinterrupted.known, fun hleased => ?_⟩
  have hkept : record'.task.leaseToken = record.task.leaseToken →
      record'.task.cancelRequested = record.task.cancelRequested →
      record'.task.cancelRequested = true :=
    fun hlease hflag => hflag.trans (hinterrupted.requested (hlease.symm.trans hleased))
  have hfreed : record'.task.lease = none → record'.task.cancelRequested = true := by
    intro hfree
    rw [leaseToken_none hfree] at hleased
    cases hleased
  have hfailed : ∀ {now other phase exc}, failClaim C now other phase exc record = some record' →
      record'.task.cancelRequested = true := by
    intro now other phase exc hfail
    cases failClaim_cases hfail with
    | stale _ => exact hkept rfl rfl
    | success _ _ => exact hfreed rfl
    | retry _ _ _ => exact hfreed rfl
    | abandon _ _ _ => exact hfreed rfl
  cases command with
  | claim now other =>
    obtain ⟨hfresh, rfl⟩ := Record.insert_eq_some.mp h
    obtain hsame | ⟨_, htaken⟩ := claim_cases C now other record
    · rw [hsame] at hleased ⊢
      exact hinterrupted.requested hleased
    · -- another claim has another token
      rw [htaken] at hleased
      have hother : other = token := Option.some.inj hleased
      have hknown := hinterrupted.known
      rw [← hother, hfresh] at hknown
      cases hknown
  | deferClaim now until' error =>
    cases h
    obtain hsame | ⟨_, hdeferred⟩ := deferClaim_cases now until' error record
    · rw [hsame] at hleased ⊢
      exact hinterrupted.requested hleased
    · rw [hdeferred] at hleased ⊢
      exact hinterrupted.requested hleased
  | renew now other =>
    cases h
    obtain hsame | ⟨htoken, hrenewed⟩ := renewLease_cases C now other record
    · rw [hsame] at hleased ⊢
      exact hinterrupted.requested hleased
    · rw [hrenewed] at hleased ⊢
      exact hinterrupted.requested (htoken.trans hleased)
  | complete now other =>
    obtain rfl | ⟨_, rfl⟩ := complete_cases h
    · exact hinterrupted.requested hleased
    · exact hfreed rfl
  | fail now other exc =>
    obtain ⟨attempt, _, hfail⟩ := fail_eq_some h
    exact hfailed hfail
  | release now other =>
    obtain ⟨_, rfl⟩ | ⟨_, rfl⟩ := releaseCancelledClaim_cases h
    · exact hinterrupted.requested hleased
    · exact hfreed rfl
  | recoverOrphan now =>
    obtain ⟨_, rfl⟩ | ⟨_, _, hfree, _⟩ := recoverOrphan_cases h
    · exact hinterrupted.requested hleased
    · exact hfreed hfree
  | recoverExpired now =>
    obtain rfl | ⟨attempt, _, _, hfail⟩ := recoverExpired_cases h
    · exact hinterrupted.requested hleased
    · exact hfailed hfail
  | start =>
    obtain ⟨hstart, _⟩ := Record.onTask_eq_some.mp h
    obtain ⟨_, _, htask⟩ := startExecution_eq_some.mp hstart
    exact hkept (htask ▸ rfl) (htask ▸ rfl)
  | activate now other fresh =>
    obtain ⟨_, _, rfl⟩ := activateAgentRun_eq_some h
    exact hkept rfl rfl
  | progress now other checkpoint result =>
    obtain ⟨_, rfl⟩ := persistAgentRunState_eq_some h
    exact hkept rfl rfl
  | appendEvent other entry =>
    cases h
    exact hkept rfl rfl
  | finishRun result awaits delegated blocked feedback =>
    obtain ⟨hrun, _⟩ := Record.onTask_eq_some.mp h
    exact hkept (leaseToken_congr (finishRun_frame hrun).lease) (finishRun_frame hrun).cancelRequested
  | pause here =>
    obtain ⟨hpause, _⟩ := Record.onTask_eq_some.mp h
    have hlease : record'.task.leaseToken = record.task.leaseToken := pauseTree_lease hpause
    exact pauseTree_requested hpause (hinterrupted.requested (hlease.symm.trans hleased))
  | resume childDone =>
    obtain ⟨reasons, rfl, _⟩ := resume_eq_some h
    exact hkept rfl rfl
  | _ => cases hraces

/-- While the row is leased to the interrupted claim, only the end of a run ends the Task. -/
theorem Interrupted.ends {C : Settings} {token : Nat} {record record' : Record} {command : Command}
    (hinterrupted : Interrupted token record) (hraces : command.races = true)
    (hdrops : command.dropsHold C record = false)
    (h : command.apply C record = some record') (hleased : record.task.leaseToken = some token)
    (hactive : record.task.status.terminal = false) (hterminal : record'.task.status.terminal = true) :
    ∃ result awaits delegated blocked feedback, command = .finishRun result awaits delegated blocked feedback ∧
      record.task.status = .exec ∧ record'.task.status = runOutcome result blocked := by
  have hrequested := hinterrupted.requested hleased
  have hfinish : command.rewrites = true := by
    cases hplain : command.rewrites with
    | true => rfl
    | false =>
      have hends : command.ends C record = false := by
        cases command with
        | fail now other exc => simpa [Command.dropsHold, hrequested, hactive] using hdrops
        | recoverExpired now => simpa [Command.dropsHold, hrequested, hactive] using hdrops
        | recoverOrphan now =>
          have hlease : record.task.lease.isNone = false := by
            cases hlease : record.task.lease with
            | none => simp [Task.leaseToken, hlease] at hleased
            | some lease => rfl
          simp [Command.ends, orphaned, hlease]
        | cancel => cases hraces
        | forceTerminate now => cases hraces
        | finishInline now other error cancelled => cases hraces
        | _ => rfl
      rw [active_kept hplain hends hactive h] at hterminal
      cases hterminal
  cases command with
  | finishRun result awaits delegated blocked feedback =>
    obtain ⟨hrun, _⟩ := Record.onTask_eq_some.mp h
    refine ⟨result, awaits, delegated, blocked, feedback, rfl, ?_⟩
    cases finishRun_cases hrun with
    | waits _ hwaits =>
      rw [hwaits.status, interrupted_terminal, hactive] at hterminal
      cases hterminal
    | children _ _ _ _ hdispatch _ =>
      rw [hdispatch] at hterminal
      cases hterminal
    | outcome _ _ hexec _ hstatus _ => exact ⟨hexec, hstatus⟩
  | write event written => cases hraces
  | retry event => cases hraces
  | _ => cases hfinish

/-! ### Runs -/

/-- What a pause promises in the runs of the race whose steps meet `allowed`: it puts no Task in
ERROR, it leaves a Task that has ended as it is, any other stays suspended by the user until it is
resumed, and the claim that it interrupts ends the Task by the outcome of its run only. -/
structure PauseKept (C : Settings) (allowed : Record → Command → Prop) : Prop where
  harmless : ∀ here before paused, Command.apply C before (.pause here) = some paused → paused.task.status = .error →
    before.task.status = .error
  outcome : ∀ here before paused, Command.apply C before (.pause here) = some paused →
    before.task.status.terminal = true →
    paused = before
  held : ∀ here before paused commands after, Command.apply C before (.pause here) = some paused →
    before.task.status.terminal = false →
    RunsWhile C (fun record command => command.races = true ∧ command.resumes = false ∧ allowed record command)
      paused commands after →
    Held after.task
  ends : ∀ before paused commands record command after token, Command.apply C before (.pause false) = some paused →
    before.task.status.terminal = false → before.task.leaseToken = some token → (before.attempt token).isSome = true →
    RunsWhile C (fun record command => command.races = true ∧ allowed record command) paused commands record →
    command.races = true → allowed record command → command.apply C record = some after →
    record.task.leaseToken = some token → record.task.status.terminal = false → after.task.status.terminal = true →
    ∃ result awaits delegated blocked feedback, command = .finishRun result awaits delegated blocked feedback ∧
      record.task.status = .exec ∧ after.task.status = runOutcome result blocked

/-- A pause is kept in every run of the race in which no transaction fails for good a claim that it
holds or asked to stop, nor applies an outcome to a held row; and such a transaction drops the hold,
or fails the Task that was resumed. -/
theorem hold_while_not_failed (C : Settings) :
    PauseKept C (fun record command => command.dropsHold C record = false) ∧
      ∀ (record : Record) (command : Command) (record' : Record), command.dropsHold C record = true →
        command.apply C record = some record' →
        (record.task.isHeldByUser = true → PauseReason.user ∉ record'.task.pauseReasons) ∧
          (record.task.isHeldByUser = false → record.task.status.terminal = false ∧ record'.task.status = .error) := by
  refine ⟨⟨?_, ?_, ?_, ?_⟩, fun record command record' => dropsHold_drops⟩
  · intro here before paused h herror
    obtain ⟨hpause, _⟩ := Record.onTask_eq_some.mp h
    cases hactive : before.task.status.terminal with
    | true =>
      obtain ⟨_, hsame⟩ | ⟨hfalse, _⟩ := pauseTree_eq_some hpause
      · rw [← hsame]
        exact herror
      · rw [hactive] at hfalse
        cases hfalse
    | false =>
      have hnonterminal := (held_of_pause hpause hactive).active
      rw [herror] at hnonterminal
      cases hnonterminal
  · intro here before paused h hterminal
    obtain ⟨hpause, hattempts⟩ := Record.onTask_eq_some.mp h
    obtain ⟨_, hsame⟩ | ⟨hfalse, _⟩ := pauseTree_eq_some hpause
    · obtain ⟨task, attempts⟩ := paused
      cases hsame
      cases hattempts
      rfl
    · rw [hterminal] at hfalse
      cases hfalse
  · intro here before paused commands after h hactive hrun
    obtain ⟨hpause, _⟩ := Record.onTask_eq_some.mp h
    refine hrun.invariant (P := fun record => Held record.task) ?_ (held_of_pause hpause hactive)
    intro record command record' hheld hstep
    exact hheld.step hstep.1.1 hstep.1.2.1 hstep.1.2.2 hstep.2
  · intro before paused commands record command after token h hactive hleased hknown hrun hraces hallowed happly hlease
      hrunning hterminal
    have hinterrupted : Interrupted token record :=
      hrun.invariant (fun _ _ _ hbefore hstep => hbefore.step hstep.1.1 hstep.2)
        (interrupted_of_pause h hactive hleased hknown)
    exact hinterrupted.ends hraces hallowed happly hlease hrunning hterminal

/-- A Task that a worker executes. -/
def executing : Record :=
  ⟨{status := .exec, lease := some ⟨7, 120⟩, attemptCount := 1}, [{number := 1, phase := .dispatch, token := 7}]⟩

/-- The same Task, paused from another process. -/
def pausedExecuting : Record :=
  {executing with task := {executing.task with status := .dispatch, pauseReasons := [.user], cancelRequested := true}}

/-- Its successful run ends before the worker's heartbeat: the outcome does not apply, the action
raises, and the paused Task is failed. -/
theorem paused_run_is_failed :
    finishRun {success := true} false false false none pausedExecuting.task = none ∧
      ¬PauseKept .shipped fun _ _ => True := by
  refine ⟨by decide, fun hkept => ?_⟩
  have hfails : (Command.apply .shipped pausedExecuting (.fail 1 7 {text := "ValueError"})).map
      (fun record => record.task.status) = some .error := by
    decide +kernel
  obtain ⟨after, hafter, herror⟩ := Option.map_eq_some_iff.mp hfails
  have hheld := hkept.held false executing pausedExecuting [.fail 1 7 {text := "ValueError"}] after (by decide) rfl
    (.single ⟨⟨rfl, rfl, trivial⟩, hafter⟩)
  have hactive := hheld.active
  rw [herror] at hactive
  cases hactive

end Galaris.Tasks
