import Galaris.Task.Effects

/-! The recovery of an expired lease, beside the end of the claim that it stands for.

A worker may stop between the commit of its action and `_complete_claim`. The recovery
then fails the claim with a `TimeoutError`: it recognises SUCCESS, but a Task that the
action suspended or routed is a failed action to it, retried or put in ERROR as the policy
decides (`recovery_respects_iff`). -/
namespace Galaris.Tasks

/-! ### The text of an error -/

theorem isSpace_head {c : Char} {s : String} {rest : List Char} (hc : Texts.isSpace c = false)
    (hs : s.toList = c :: rest) :
    ∃ rest', (Texts.stripString s).toList = c :: rest' := by
  have hfront : s.toList.dropWhile Texts.isSpace = c :: rest := by
    rw [hs, List.dropWhile_cons_of_neg (by simp [hc])]
  -- the last character that is kept is `c` at the latest
  have hback : ∀ l : List Char, ∃ l', (l ++ [c]).dropWhile Texts.isSpace = l' ++ [c] := by
    intro l
    induction l with
    | nil => exact ⟨[], by rw [List.nil_append, List.dropWhile_cons_of_neg (by simp [hc])]⟩
    | cons d l ih =>
      rw [List.cons_append]
      cases hd : Texts.isSpace d with
      | true =>
        rw [List.dropWhile_cons_of_pos hd]
        exact ih
      | false =>
        rw [List.dropWhile_cons_of_neg (by simp [hd])]
        exact ⟨d :: l, rfl⟩
  obtain ⟨l', hl'⟩ := hback rest.reverse
  refine ⟨l'.reverse, ?_⟩
  rw [Texts.stripString, Texts.strip, Texts.stripOf, hfront, List.reverse_cons, hl']
  simp

/-- The error that is kept begins as the text does. -/
theorem error_head {exc : Raised} {c : Char} {rest : List Char} (hc : Texts.isSpace c = false)
    (htext : exc.text.toList = c :: rest) : exc.error.toList.head? = some c := by
  obtain ⟨rest', hstrip⟩ := isSpace_head hc htext
  rw [Raised.error, cut, hstrip]
  simp

/-- A failed action and an expired lease leave different errors. -/
theorem outcomeError_ne (C : Settings) (task : Task) : (outcomeError C task).error ≠ leaseExpired.error := by
  intro heq
  have htext : ∃ rest, (outcomeError C task).text.toList = 'R' :: rest := ⟨_, String.toList_append⟩
  obtain ⟨rest, htext⟩ := htext
  have hruntime : (outcomeError C task).error.toList.head? = some 'R' := error_head (by decide) htext
  have hlease : leaseExpired.error.toList.head? = some 'T' := error_head (by decide) rfl
  rw [heq, hlease] at hruntime
  cases hruntime

/-! ### The committed outcome -/

/-- The transaction leaves the committed phase, the reasons to wait and the result in place. -/
structure LeavesInPlace (before after : Task) : Prop where
  status : after.status = before.status
  pauseReasons : after.pauseReasons = before.pauseReasons
  executionResult : after.executionResult = before.executionResult

/-- The feedback of a Task that is given up after this failure. -/
def givenUp (C : Settings) (exc : Raised) (task : Task) : String :=
  C.message "failed_after_attempts" [toString (task.consecutiveFailures + 1), exc.error]

/-- Of an outcome, recovery keeps SUCCESS; a wait or a route when the policy admits a retry; and an
ERROR when it does not, if nothing is suspended and the result already is a failure with a text. -/
def recoveryKeeps (C : Settings) (phase : TaskStatus) (task : Task) : Bool :=
  match task.status with
  | .success => true
  | .error => !admitsRetry C phase leaseExpired task && task.pauseReasons.isEmpty &&
      task.executionResult.any fun result => !result.success &&
        (Texts.stripString result.result != "" || result.result == givenUp C leaseExpired task)
  | _ => admitsRetry C phase leaseExpired task

theorem failedExecutionResult_eq_iff {feedback : String} {result : Option ExecutionResult} :
    some (failedExecutionResult feedback result) = result ↔
      (result.any fun result => !result.success &&
        (Texts.stripString result.result != "" || result.result == feedback)) = true := by
  cases result with
  | none => simp
  | some result =>
    obtain ⟨success, text, failure, toolsUsed, disposition, runId⟩ := result
    simp only [failedExecutionResult, Option.some.injEq, ExecutionResult.mk.injEq, Option.any_some, Bool.and_eq_true,
      Bool.not_eq_true', Bool.or_eq_true, bne_iff_ne, beq_iff_eq, and_true]
    cases success with
    | true => simp
    | false =>
      by_cases hblank : Texts.stripString text = ""
      · simp [hblank, eq_comm]
      · simp [hblank]

theorem retriedTask_inPlace {C : Settings} {now : Nat} {phase : TaskStatus} {exc : Raised} {task : Task} :
    LeavesInPlace task (retriedTask C now phase exc task) ↔ resumePhase phase task.status = task.status :=
  ⟨fun h => h.status, fun h => ⟨h, rfl, rfl⟩⟩

theorem abandonedTask_inPlace {C : Settings} {exc : Raised} {task : Task} :
    LeavesInPlace task (abandonedTask C exc task) ↔ task.status = .error ∧ task.pauseReasons = [] ∧
      some (failedExecutionResult (givenUp C exc task) task.executionResult) = task.executionResult :=
  ⟨fun h => ⟨h.status.symm, h.pauseReasons.symm, h.executionResult⟩, fun h => ⟨h.1.symm, h.2.1.symm, h.2.2⟩⟩

/-- Recovery leaves the outcome in place where `recoveryKeeps` says so. -/
theorem failClaim_inPlace {C : Settings} {now token : Nat} {phase : TaskStatus} {record recovered : Record}
    (htoken : record.task.leaseToken = some token) (hcommitted : record.task.status ≠ .exec)
    (h : failClaim C now token phase leaseExpired record = some recovered) :
    LeavesInPlace record.task recovered.task ↔ recoveryKeeps C phase record.task = true := by
  cases failClaim_cases h with
  | stale hstale => exact absurd htoken hstale
  | success _ hstatus => exact ⟨fun _ => by simp [recoveryKeeps, hstatus], fun _ => ⟨rfl, rfl, rfl⟩⟩
  | retry _ hstatus hretry =>
    rw [retriedTask_inPlace]
    cases hphase : record.task.status <;> simp only [recoveryKeeps, hphase, hretry, resumePhase]
    case exec => exact absurd hphase hcommitted
    case error => cases phase <;> simp
  | abandon _ hstatus hretry =>
    rw [abandonedTask_inPlace, failedExecutionResult_eq_iff]
    cases hphase : record.task.status <;> simp only [recoveryKeeps, hphase, hretry]
    case success => exact absurd hphase hstatus
    case exec => exact absurd hphase hcommitted
    case error => simp [List.isEmpty_iff]
    all_goals simp

/-- The recovery ends as the worker would have: the outcome is in place, and the row and its
attempts are those that `_complete_claim` leaves. -/
structure RespectsOutcome (before recovered completed : Record) : Prop where
  inPlace : LeavesInPlace before.task recovered.task
  same : recovered = completed

/-- A worker that finished normally has no failure counted, or another error. -/
theorem recovered_eq_completed_iff {C : Settings} {now token : Nat} {phase : TaskStatus}
    {record recovered completed : Record}
    (htoken : record.task.leaseToken = some token)
    (hrecovered : failClaim C now token phase leaseExpired record = some recovered)
    (hcompleted : completeClaim C now token phase record = some completed) :
    recovered = completed ↔ record.task.status = .success := by
  constructor
  · intro heq
    cases hprovisional : (record.task.status == .error && C.retryIsSafe record.task phase) with
    | true =>
      -- the worker fails the claim too, for the error of its action
      have hfail : failClaim C now token phase (outcomeError C record.task) record = some completed := by
        simpa [completeClaim, closeClaim, htoken, hprovisional] using hcompleted
      have herror : recovered.task.lastError = some leaseExpired.error ∨ record.task.status = .success := by
        cases failClaim_cases hrecovered with
        | stale hstale => exact absurd htoken hstale
        | success _ hstatus => exact .inr hstatus
        | retry _ _ _ => exact .inl rfl
        | abandon _ _ _ => exact .inl rfl
      obtain herror | hstatus := herror
      · have hother : completed.task.lastError = some (outcomeError C record.task).error ∨
            record.task.status = .success := by
          cases failClaim_cases hfail with
          | stale hstale => exact absurd htoken hstale
          | success _ hstatus => exact .inr hstatus
          | retry _ _ _ => exact .inl rfl
          | abandon _ _ _ => exact .inl rfl
        obtain hother | hstatus := hother
        · rw [heq, hother, Option.some.injEq] at herror
          exact absurd herror (outcomeError_ne C record.task)
        · exact hstatus
      · exact hstatus
    | false =>
      have hfinal : completed = finalizeClaimOutcome C now token record := by
        simp only [completeClaim, closeClaim, htoken, hprovisional, ne_eq, not_true_eq_false, if_false,
          Bool.false_eq_true, Option.some.injEq] at hcompleted
        exact hcompleted.symm
      have hcounted : completed.task.consecutiveFailures = 0 := by rw [hfinal]; rfl
      cases failClaim_cases hrecovered with
      | stale hstale => exact absurd htoken hstale
      | success _ hstatus => exact hstatus
      | retry _ _ _ =>
        rw [← heq] at hcounted
        exact absurd hcounted (Nat.succ_ne_zero _)
      | abandon _ _ _ =>
        rw [← heq] at hcounted
        exact absurd hcounted (Nat.succ_ne_zero _)
  · intro hstatus
    rw [failClaim_success htoken hstatus] at hrecovered
    simp [completeClaim, closeClaim, htoken, hstatus] at hcompleted
    exact (Option.some.inj hrecovered).symm.trans hcompleted

theorem failClaim_total (C : Settings) (now token : Nat) (phase : TaskStatus) (exc : Raised) (record : Record) :
    ∃ record', failClaim C now token phase exc record = some record' := by
  by_cases htoken : record.task.leaseToken = some token
  · by_cases hstatus : record.task.status = .success
    · exact ⟨_, failClaim_success htoken hstatus⟩
    · cases hretry : admitsRetry C phase exc record.task with
      | true => exact ⟨_, failClaim_retry htoken hstatus hretry⟩
      | false => exact ⟨_, failClaim_abandoned htoken hstatus hretry⟩
  · exact ⟨_, failClaim_stale htoken⟩

theorem completeClaim_total (C : Settings) (now token : Nat) (phase : TaskStatus) (record : Record) :
    ∃ record', completeClaim C now token phase record = some record' := by
  unfold completeClaim
  split
  · exact failClaim_total C now token phase _ _
  · exact ⟨_, rfl⟩

/-- What recovery makes of a committed outcome: every phase but EXEC, in which an action has not
committed one. -/
def RecoveryRespects (C : Settings) : Prop :=
  ∀ now record attempt, expired now record.task = true → record.current = some attempt → record.task.status ≠ .exec →
    ∃ recovered completed, recoverExpired C now record = some recovered ∧
      completeClaim C now attempt.token attempt.phase record = some completed ∧
      RespectsOutcome record recovered completed

/-- Recovery respects SUCCESS, and nothing else; the phase, the reasons and the result are in place
where `recoveryKeeps` says so. -/
theorem recovery_respects_iff (C : Settings) (now : Nat) (record : Record) (attempt : Attempt)
    (hexpired : expired now record.task = true) (hcurrent : record.current = some attempt)
    (hcommitted : record.task.status ≠ .exec) :
    ∃ recovered completed, recoverExpired C now record = some recovered ∧
      completeClaim C now attempt.token attempt.phase record = some completed ∧
      (RespectsOutcome record recovered completed ↔ record.task.status = .success) ∧
      (LeavesInPlace record.task recovered.task ↔ recoveryKeeps C attempt.phase record.task = true) := by
  have htoken := (Record.current_token hcurrent).1
  obtain ⟨recovered, hrecovered⟩ := failClaim_total C now attempt.token attempt.phase leaseExpired record
  obtain ⟨completed, hcompleted⟩ := completeClaim_total C now attempt.token attempt.phase record
  have hrecovery : recoverExpired C now record = some recovered := by
    simpa only [recoverExpired, hcurrent, hexpired, if_true] using hrecovered
  have hsame := recovered_eq_completed_iff htoken hrecovered hcompleted
  have hkept := failClaim_inPlace htoken hcommitted hrecovered
  refine ⟨recovered, completed, hrecovery, hcompleted,
    ⟨fun h => hsame.mp h.same, fun hstatus => ⟨?_, hsame.mpr hstatus⟩⟩, hkept⟩
  exact hkept.mpr (by simp [recoveryKeeps, hstatus])

/-- A Task that its action suspended on an awaited answer, after it had used a tool. -/
def awaiting : Record :=
  ⟨{ status := .dispatch
     pauseReasons := [.await]
     lease := some ⟨7, 120⟩
     attemptCount := 1
     executionResult := some {success := true, toolsUsed := ["send"]}},
    [{number := 1, phase := .dispatch, token := 7}]⟩

theorem recovery_respects_iff_awaiting :
    ∃ recovered completed, recoverExpired .shipped 120 awaiting = some recovered ∧
      completeClaim .shipped 120 7 .dispatch awaiting = some completed ∧
      (RespectsOutcome awaiting recovered completed ↔ awaiting.task.status = .success) ∧
      (LeavesInPlace awaiting.task recovered.task ↔ recoveryKeeps .shipped .dispatch awaiting.task = true) :=
  recovery_respects_iff .shipped 120 awaiting {number := 1, phase := .dispatch, token := 7}
    (by decide) (by decide) (by decide)

/-- Its worker stops before `_complete_claim`: the Task is not resumed when the answer comes, it is failed. -/
theorem awaiting_task_is_failed :
    (recoverExpired .shipped 120 awaiting).map (fun record => (record.task.status, record.task.pauseReasons)) =
        some (.error, []) ∧
      ¬RecoveryRespects .shipped := by
  have hfails : (recoverExpired .shipped 120 awaiting).map
      (fun record => (record.task.status, record.task.pauseReasons)) =
      some (.error, []) := by
    decide +kernel
  refine ⟨hfails, fun hrespects => ?_⟩
  obtain ⟨recovered, completed, hrecovered, _, houtcome⟩ :=
    hrespects 120 awaiting {number := 1, phase := .dispatch, token := 7} (by decide) (by decide) (by decide)
  rw [hrecovered, Option.map_some, Option.some.injEq, Prod.mk.injEq] at hfails
  exact absurd (houtcome.inPlace.status.symm.trans hfails.1) (by decide)

end Galaris.Tasks
