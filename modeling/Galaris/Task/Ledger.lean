import Galaris.Task.Effects

/-! The lease of a Task and the ledger of its attempts.

Whatever a transaction does, it moves the ledger in one of four ways (`LedgerMove`): not
at all, by closing the attempt of the lease and freeing it, by noting an event of a run, or
by taking the Task for a new attempt. A claim takes over an expired lease without closing
the attempt it belongs to, and an event finds its attempt by the worker's token alone, so
that the ledger has one open attempt at most, and keeps the closed ones, in the runs whose
claims find no lease and whose events come under it (`ledger_while_not_taken_over`). -/
namespace Galaris.Tasks

open Transition

/-! ### Attempts of a token -/

/-- A change that closes an attempt, and leaves its number and its token. -/
structure Closing (change : Attempt → Attempt) : Prop where
  number : ∀ attempt, (change attempt).number = attempt.number
  token : ∀ attempt, (change attempt).token = attempt.token
  finished : ∀ attempt, (change attempt).finishedAt.isSome = true

theorem mem_settle {token : Nat} {change : Attempt → Attempt} {attempts : List Attempt} {attempt : Attempt} :
    attempt ∈ settle token change attempts ↔
      ∃ before ∈ attempts, (if before.token = token then change before else before) = attempt := List.mem_map

theorem settle_numbers {token : Nat} {change : Attempt → Attempt}
    (h : ∀ attempt, (change attempt).number = attempt.number) (attempts : List Attempt) :
    (settle token change attempts).map Attempt.number = attempts.map Attempt.number := by
  rw [settle, List.map_map]
  refine List.map_congr_left fun attempt _ => ?_
  show (if attempt.token = token then change attempt else attempt).number = attempt.number
  split
  · exact h attempt
  · rfl

theorem settle_tokens {token : Nat} {change : Attempt → Attempt}
    (h : ∀ attempt, (change attempt).token = attempt.token) (attempts : List Attempt) :
    (settle token change attempts).map Attempt.token = attempts.map Attempt.token := by
  rw [settle, List.map_map]
  refine List.map_congr_left fun attempt _ => ?_
  show (if attempt.token = token then change attempt else attempt).token = attempt.token
  split
  · exact h attempt
  · rfl

/-- An attempt that is still open after its token was settled is of another token. -/
theorem open_of_settle {token : Nat} {change : Attempt → Attempt} (h : Closing change) {attempts : List Attempt}
    {attempt : Attempt} (hmem : attempt ∈ settle token change attempts) (hopen : attempt.finishedAt = none) :
    attempt ∈ attempts ∧ attempt.token ≠ token := by
  obtain ⟨before, hbefore, heq⟩ := mem_settle.mp hmem
  split at heq
  · have hfinished := h.finished before
    rw [heq, hopen] at hfinished
    cases hfinished
  · next htoken => exact heq ▸ ⟨hbefore, htoken⟩

theorem closing_finalize (C : Settings) (now : Nat) (task : Task) : Closing (finalizeAttempt C now task) := by
  refine ⟨fun attempt => ?_, fun attempt => ?_, fun attempt => ?_⟩
  all_goals
    unfold finalizeAttempt
    dsimp only
    split
    · rfl
    · split
      · rfl
      · split <;> rfl

theorem closing_failed (now : Nat) (exc : Raised) (again : Bool) : Closing (failedAttempt now exc again) :=
  ⟨fun _ => rfl, fun _ => rfl, fun _ => rfl⟩

theorem closing_cancelled (now : Nat) : Closing (cancelledAttempt now) := ⟨fun _ => rfl, fun _ => rfl, fun _ => rfl⟩

theorem closing_inline (now : Nat) (error : Option String) (cancelled failed : Bool) :
    Closing (inlineAttempt now error cancelled failed) := ⟨fun _ => rfl, fun _ => rfl, fun _ => rfl⟩

theorem closing_unstarted (C : Settings) (now : Nat) : Closing (unstartedAttempt C now) :=
  ⟨fun _ => rfl, fun _ => rfl, fun _ => rfl⟩

theorem closing_terminated (now : Nat) (reason : String) : Closing (terminatedAttempt now reason) where
  number attempt := by unfold terminatedAttempt; split <;> rfl
  token attempt := by unfold terminatedAttempt; split <;> rfl
  finished attempt := by
    unfold terminatedAttempt
    split
    · rfl
    · next h => exact Option.isSome_iff_ne_none.mpr (by simpa using h)

/-- An event is noted in an attempt, and nothing else of it changes. -/
structure Noting (change : Attempt → Attempt) : Prop where
  number : ∀ attempt, (change attempt).number = attempt.number
  token : ∀ attempt, (change attempt).token = attempt.token
  finished : ∀ attempt, (change attempt).finishedAt = attempt.finishedAt

theorem noting_event (event : AgentEvent) : Noting (noteEvent event) where
  number attempt := by simp only [noteEvent]
  token attempt := by simp only [noteEvent]
  finished attempt := by simp only [noteEvent]

/-! ### The moves of the ledger -/

/-- The claim takes the Task while another attempt still has its expired lease. -/
def Command.takesOver (record : Record) : Command → Bool
  | .claim now _ => claimable now record.task && record.task.lease.isSome
  | .claimInline now _ => record.task.status == .dispatch && record.task.lease.isSome &&
      record.task.lease.all fun lease => decide (lease.expires ≤ now)
  | _ => false

/-- The command is a claim. -/
def Command.claims : Command → Bool
  | .claim .. | .claimInline .. => true
  | _ => false

/-- The moves of a transaction that is no claim. -/
inductive LedgerChange (record : Record) (command : Command) (record' : Record) : Prop
  | keep : record'.attempts = record.attempts → record'.task.leaseToken = record.task.leaseToken →
    record'.task.attemptCount = record.task.attemptCount → LedgerChange record command record'
  | close (token : Nat) (change : Attempt → Attempt) : record.task.leaseToken = some token → Closing change →
    record'.attempts = settle token change record.attempts → record'.task.leaseToken = none →
    record'.task.attemptCount = record.task.attemptCount → LedgerChange record command record'
  | note (token : Nat) (event : AgentEvent) : command = .appendEvent token event →
    record' = appendAgentRunEvent token event record → LedgerChange record command record'

inductive LedgerMove (record : Record) (command : Command) (record' : Record) : Prop
  | change : LedgerChange record command record' → LedgerMove record command record'
  | take (token : Nat) : record.task.status ∈ schedulerPhases → record.attempt token = none →
    command.takesOver record = record.task.lease.isSome →
    record'.attempts = record.attempts ++
      [{number := record.task.attemptCount + 1, phase := record.task.status, token := token}] →
    record'.task.leaseToken = some token → record'.task.attemptCount = record.task.attemptCount + 1 →
    LedgerMove record command record'

theorem LedgerChange.same (record : Record) (command : Command) :
    LedgerChange record command record := .keep rfl rfl rfl

theorem LedgerChange.failClaim {C : Settings} {now token : Nat} {phase : TaskStatus} {exc : Raised} {command : Command}
    {record record' : Record} (h : Tasks.failClaim C now token phase exc record = some record') :
    LedgerChange record command record' := by
  cases failClaim_cases h with
  | stale _ => exact .same record command
  | success htoken _ => exact .close token _ htoken (closing_finalize C now record.task) rfl rfl rfl
  | retry htoken _ _ => exact .close token _ htoken (closing_failed now exc true) rfl rfl rfl
  | abandon htoken _ _ => exact .close token _ htoken (closing_failed now exc false) rfl rfl rfl

/-- A transaction that is no claim keeps the ledger, closes the attempt of the lease, or notes an event. -/
theorem ledger_change {C : Settings} {record record' : Record} {command : Command} (hclaims : command.claims = false)
    (h : command.apply C record = some record') : LedgerChange record command record' := by
  cases command with
  | claim now token => cases hclaims
  | claimInline now token => cases hclaims
  | deferClaim now until' error =>
    cases h
    obtain hsame | ⟨_, hdeferred⟩ := deferClaim_cases now until' error record
    · rw [hsame]
      exact .same record _
    · rw [hdeferred]
      exact .keep rfl rfl rfl
  | releaseUnstarted now token =>
    cases h
    obtain hsame | ⟨htoken, hreleased⟩ := releaseUnstartedClaim_cases C now token record
    · rw [hsame]
      exact .same record _
    · rw [hreleased]
      exact .close token _ htoken (closing_unstarted C now) rfl rfl rfl
  | renew now token =>
    cases h
    obtain hsame | ⟨htoken, hrenewed⟩ := renewLease_cases C now token record
    · rw [hsame]
      exact .same record _
    · rw [hrenewed]
      exact .keep rfl htoken.symm rfl
  | complete now token =>
    obtain rfl | ⟨htoken, rfl⟩ := complete_cases h
    · exact .same _ _
    · exact .close token _ htoken (closing_finalize C now record.task) rfl rfl rfl
  | fail now token exc =>
    obtain ⟨attempt, _, hfail⟩ := fail_eq_some h
    exact .failClaim hfail
  | release now token =>
    obtain ⟨_, rfl⟩ | ⟨htoken, rfl⟩ := releaseCancelledClaim_cases h
    · exact .same _ _
    · exact .close token _ htoken (closing_cancelled now) rfl rfl rfl
  | finishInline now token error cancelled =>
    obtain ⟨_, rfl⟩ | ⟨htoken, failed, hattempts, hlease, _, hcount, _⟩ := finishInlineExecution_cases h
    · exact .same _ _
    · exact .close token _ htoken (closing_inline now error cancelled failed) hattempts (leaseToken_none hlease) hcount
  | recoverOrphan now =>
    obtain ⟨_, rfl⟩ | ⟨horphan, hattempts, hlease, hcount, _⟩ := recoverOrphan_cases h
    · exact .same _ _
    · have hfree : record.task.lease = none := by
        simp only [orphaned, Bool.and_eq_true, Option.isNone_iff_eq_none] at horphan
        exact horphan.1.1.2
      exact .keep hattempts (leaseToken_congr (hlease.trans hfree.symm)) hcount
  | recoverExpired now =>
    obtain rfl | ⟨attempt, _, _, hfail⟩ := recoverExpired_cases h
    · exact .same _ _
    · exact .failClaim hfail
  | start =>
    obtain ⟨hstart, hattempts⟩ := Record.onTask_eq_some.mp h
    obtain ⟨_, _, htask⟩ := startExecution_eq_some.mp hstart
    exact .keep hattempts (htask ▸ rfl) (htask ▸ rfl)
  | activate now token fresh =>
    obtain ⟨_, _, rfl⟩ := activateAgentRun_eq_some h
    exact .keep rfl rfl rfl
  | progress now token checkpoint result =>
    obtain ⟨_, rfl⟩ := persistAgentRunState_eq_some h
    exact .keep rfl rfl rfl
  | appendEvent token event =>
    cases h
    exact .note token event rfl rfl
  | finishRun result awaits delegated blocked feedback =>
    obtain ⟨hrun, hattempts⟩ := Record.onTask_eq_some.mp h
    have hframe := finishRun_frame hrun
    exact .keep hattempts (leaseToken_congr hframe.lease) hframe.attemptCount
  | write event written =>
    obtain ⟨hwrite, hattempts⟩ := Record.onTask_eq_some.mp h
    have hframe := write_frame hwrite
    exact .keep hattempts (leaseToken_congr hframe.lease) hframe.attemptCount
  | cancel =>
    obtain ⟨hcancel, hattempts⟩ := Record.onTask_eq_some.mp h
    obtain ⟨_, _, _, hlease, hcount, _⟩ := requestCancellation_eq_some hcancel
    exact .keep hattempts (leaseToken_congr hlease) hcount
  | forceTerminate now =>
    obtain ⟨hlease, _, _, hcount, _, hattempts⟩ := forceTerminate_eq_some h
    cases hheld : record.task.lease with
    | none =>
      rw [hheld] at hattempts
      exact .keep hattempts (leaseToken_congr (hlease.trans hheld.symm)) hcount
    | some lease =>
      rw [hheld] at hattempts
      exact .close lease.token _ (by simp [Task.leaseToken, hheld]) (closing_terminated now _) hattempts
        (leaseToken_none hlease) hcount
  | pause here =>
    obtain ⟨hpause, hattempts⟩ := Record.onTask_eq_some.mp h
    obtain ⟨_, hsame⟩ | ⟨_, hheld | ⟨flag, hheld⟩⟩ := pauseTree_eq_some hpause
    · exact .keep hattempts (hsame ▸ rfl) (hsame ▸ rfl)
    · rw [Task.suspend_eq] at hheld
      exact .keep hattempts (hheld ▸ rfl) (hheld ▸ rfl)
    · rw [Task.suspend_eq] at hheld
      exact .keep hattempts (hheld ▸ rfl) (hheld ▸ rfl)
  | resume childDone =>
    obtain ⟨reasons, rfl, _⟩ := resume_eq_some h
    exact .keep rfl rfl rfl
  | preempt here =>
    obtain ⟨hpreempt, hattempts⟩ := Record.onTask_eq_some.mp h
    rw [preempt_eq] at hpreempt
    have htask := Option.some.inj hpreempt
    cases here with
    | true => exact .keep hattempts (htask ▸ rfl) (htask ▸ rfl)
    | false => exact .keep hattempts (htask ▸ rfl) (htask ▸ rfl)
  | retry event =>
    obtain ⟨hretry, hattempts⟩ := Record.onTask_eq_some.mp h
    obtain ⟨hlease, hcount⟩ := retryTask_frame hretry
    exact .keep hattempts (leaseToken_congr hlease) hcount

/-- The lease of a Task is kept or freed by what is no claim. -/
theorem LedgerChange.leaseToken {record record' : Record} {command : Command}
    (h : LedgerChange record command record') :
    record'.task.leaseToken = record.task.leaseToken ∨ record'.task.leaseToken = none := by
  cases h with
  | keep _ hsame _ => exact .inl hsame
  | close token change _ _ _ hfree _ => exact .inr hfree
  | note token event _ hnoted =>
    rw [hnoted]
    exact .inl rfl

/-- Every transaction moves the ledger in one of the four ways. -/
theorem ledger_move {C : Settings} {record record' : Record} {command : Command}
    (h : command.apply C record = some record') : LedgerMove record command record' := by
  cases hclaims : command.claims with
  | false => exact .change (ledger_change hclaims h)
  | true =>
    cases command with
    | claim now token =>
      obtain ⟨hfresh, rfl⟩ := Record.insert_eq_some.mp h
      obtain hsame | ⟨hclaimable, htaken⟩ := claim_cases C now token record
      · rw [hsame]
        exact .change (.same record _)
      · rw [htaken]
        exact .take token (claimable_phase hclaimable).1 hfresh (by simp [Command.takesOver, hclaimable]) rfl rfl rfl
    | claimInline now token =>
      obtain ⟨hfresh, rfl⟩ := Record.insert_eq_some.mp h
      obtain hsame | ⟨⟨hdispatch, hexpired⟩, htaken⟩ := claimInline_cases C now token record
      · rw [hsame]
        exact .change (.same record _)
      · rw [htaken]
        exact .take token (hdispatch ▸ dispatch_scheduled) hfresh
          (by simp [Command.takesOver, hdispatch, hexpired]) rfl rfl rfl
    | _ => cases hclaims

/-! ### What the ledger keeps -/

/-- What holds of the ledger in every run. -/
structure Numbered (record : Record) : Prop where
  numbers : record.attempts.map Attempt.number = List.range' 1 record.task.attemptCount
  tokens : (record.attempts.map Attempt.token).Nodup
  leased : ∀ token, record.task.leaseToken = some token →
    ∃ attempt ∈ record.attempts, attempt.token = token ∧ attempt.finishedAt = none

/-- Every open attempt has the lease. -/
def OpenLeased (record : Record) : Prop :=
  ∀ attempt ∈ record.attempts, attempt.finishedAt = none → record.task.leaseToken = some attempt.token

theorem fresh_token {record : Record} {token : Nat} (h : record.attempt token = none) :
    token ∉ record.attempts.map Attempt.token := by
  intro hmem
  obtain ⟨attempt, hattempt, htoken⟩ := List.mem_map.mp hmem
  have hnone := List.find?_eq_none.mp h attempt hattempt
  simp [htoken] at hnone

/-- The attempt of a token stays. -/
theorem attempt_known {record record' : Record} {command : Command}
    (h : LedgerMove record command record') {token : Nat}
    (hknown : (record.attempt token).isSome = true) : (record'.attempt token).isSome = true := by
  have htokens : ∀ attempts : List Attempt,
      (attempts.find? fun attempt => attempt.token == token).isSome = true ↔ token ∈ attempts.map Attempt.token := by
    simp
  have hmem := (htokens record.attempts).mp hknown
  refine (htokens record'.attempts).mpr ?_
  cases h with
  | change h =>
    cases h with
    | keep hattempts _ _ => rwa [hattempts]
    | close other change _ hclosing hattempts _ _ => rwa [hattempts, settle_tokens hclosing.token]
    | note other event _ hnoted =>
      rw [hnoted]
      exact (settle_tokens (noting_event event).token record.attempts).symm ▸ hmem
  | take other _ _ _ hattempts _ _ =>
    rw [hattempts, List.map_append]
    exact List.mem_append_left _ hmem

theorem Numbered.change {record record' : Record} {command : Command} (hledger : Numbered record)
    (h : LedgerChange record command record') : Numbered record' := by
  cases h with
  | keep hattempts hlease hcount =>
    refine ⟨by rw [hattempts, hcount]; exact hledger.numbers, by rw [hattempts]; exact hledger.tokens, ?_⟩
    rw [hattempts, hlease]
    exact hledger.leased
  | close token change _ hclosing hattempts hlease hcount =>
    refine ⟨?_, ?_, ?_⟩
    · rw [hattempts, settle_numbers hclosing.number, hcount]
      exact hledger.numbers
    · rw [hattempts, settle_tokens hclosing.token]
      exact hledger.tokens
    · intro other hother
      rw [hlease] at hother
      cases hother
  | note token event _ hnoted =>
    have hnoting := noting_event event
    rw [hnoted]
    refine ⟨?_, ?_, fun other hother => ?_⟩
    · exact (settle_numbers hnoting.number record.attempts).trans hledger.numbers
    · exact (settle_tokens hnoting.token record.attempts).symm ▸ hledger.tokens
    · obtain ⟨leased, hleased, htoken, hopen⟩ := hledger.leased other hother
      refine ⟨_, mem_settle.mpr ⟨leased, hleased, rfl⟩, ?_, ?_⟩
      · split
        · exact (hnoting.token leased).trans htoken
        · exact htoken
      · split
        · exact (hnoting.finished leased).trans hopen
        · exact hopen

theorem Numbered.move {record record' : Record} {command : Command} (hledger : Numbered record)
    (h : LedgerMove record command record') : Numbered record' := by
  cases h with
  | change h => exact hledger.change h
  | take token _ hfresh _ hattempts hlease hcount =>
    refine ⟨?_, ?_, ?_⟩
    · rw [hattempts, hcount, List.map_append, hledger.numbers, List.range'_1_concat, Nat.add_comm 1]
      rfl
    · rw [hattempts, List.map_append]
      refine List.nodup_append.mpr ⟨hledger.tokens, List.nodup_singleton _, ?_⟩
      intro a ha b hb heq
      rw [List.map_cons, List.map_nil, List.mem_singleton] at hb
      have htoken : a = token := heq.trans hb
      exact fresh_token hfresh (htoken ▸ ha)
    · intro other hother
      rw [hlease] at hother
      cases hother
      exact ⟨_, hattempts ▸ List.mem_append_right _ (List.mem_singleton_self _), rfl, rfl⟩

theorem OpenLeased.change {record record' : Record} {command : Command} (hopen : OpenLeased record)
    (h : LedgerChange record command record') : OpenLeased record' := by
  cases h with
  | keep hattempts hlease _ =>
    intro attempt hmem hunfinished
    rw [hlease]
    exact hopen attempt (hattempts ▸ hmem) hunfinished
  | close token change htoken hclosing hattempts _ _ =>
    -- the attempt of the lease was closed, and no other was open
    intro attempt hmem hunfinished
    obtain ⟨hbefore, hother⟩ := open_of_settle hclosing (hattempts ▸ hmem) hunfinished
    have heq := htoken.symm.trans (hopen attempt hbefore hunfinished)
    exact absurd (Option.some.inj heq).symm hother
  | note token event _ hnoted =>
    subst hnoted
    intro attempt hmem hunfinished
    obtain ⟨before, hbefore, heq⟩ := mem_settle.mp hmem
    have hnoting := noting_event event
    split at heq
    · rw [← heq, hnoting.finished] at hunfinished
      rw [← heq, hnoting.token]
      exact hopen before hbefore hunfinished
    · rw [← heq] at hunfinished ⊢
      exact hopen before hbefore hunfinished

theorem OpenLeased.move {record record' : Record} {command : Command} (hopen : OpenLeased record)
    (h : LedgerMove record command record') (hfree : command.takesOver record = false) : OpenLeased record' := by
  cases h with
  | change h => exact hopen.change h
  | take token _ _ htakes hattempts hlease _ =>
    intro attempt hmem hunfinished
    rw [hattempts] at hmem
    obtain hold | hnew := List.mem_append.mp hmem
    · have hheld := hopen attempt hold hunfinished
      have hnone : record.task.lease = none := Option.not_isSome_iff_eq_none.mp (by simp [← htakes, hfree])
      rw [leaseToken_none hnone] at hheld
      cases hheld
    · rw [hlease, List.mem_singleton.mp hnew]

/-! ### Events of a run -/

/-- The token that the worker of a transaction presents. -/
def Command.presents : Command → Option Nat
  | .releaseUnstarted _ token | .renew _ token | .complete _ token | .fail _ token _ | .release _ token
  | .finishInline _ token _ _ | .activate _ token _ | .progress _ token _ _ | .appendEvent token _ => some token
  | _ => none

/-- The event is noted under a token that is not the row's, in an attempt that it changes: all but
one with that same event a thousand times. -/
def Command.notesLate (record : Record) : Command → Bool
  | .appendEvent token entry => decide (record.task.leaseToken ≠ some token) &&
      (record.attempt token).any fun attempt => attempt.events != List.replicate 1000 entry
  | _ => false

theorem eq_replicate_of_append {α : Type} {a b : α} : ∀ {l : List α}, l ++ [b] = a :: l → l = List.replicate l.length b
  | [], _ => rfl
  | c :: l, h => by
    obtain ⟨hc, hl⟩ := List.cons.inj h
    have hrest := eq_replicate_of_append hl
    have hsame : c = b := by
      have hsucc : List.replicate (l.length + 1) b = c :: l := by
        rw [List.replicate_succ', ← hrest]
        exact hl
      rw [List.replicate_succ] at hsucc
      exact (List.cons.inj hsucc).1.symm
    rw [List.length_cons, List.replicate_succ, ← hrest, hsame]

/-- An event changes every attempt but one that is full of it. -/
theorem noteEvent_eq_iff {event : AgentEvent} {attempt : Attempt} :
    noteEvent event attempt = attempt ↔ attempt.events = List.replicate 1000 event := by
  obtain ⟨number, phase, token, status, finishedAt, retryable, error, stopped, events⟩ := attempt
  simp only [noteEvent, Attempt.mk.injEq, true_and]
  constructor
  · intro h
    have hlength := congrArg List.length h
    rw [List.length_drop, List.length_append, List.length_singleton] at hlength
    have hfull : events.length = 1000 := by omega
    rw [hfull] at h
    cases events with
    | nil => cases hfull
    | cons first rest =>
      have hrest : rest ++ [event] = first :: rest := h
      have hreplicate := eq_replicate_of_append hrest
      have hlast : rest.length = 999 := by simpa using hfull
      rw [← hrest, hreplicate, hlast, ← List.replicate_succ']
  · rintro rfl
    rw [List.length_replicate, ← List.replicate_succ', List.drop_replicate]

theorem settle_eq_self_iff {token : Nat} {change : Attempt → Attempt} {attempts : List Attempt} :
    settle token change attempts = attempts ↔ ∀ attempt ∈ attempts, attempt.token = token →
        change attempt = attempt := by
  refine ⟨fun h attempt hmem htoken => ?_, fun h => ?_⟩
  · have hid : attempts.map (fun attempt => if attempt.token = token then change attempt
        else attempt) = attempts.map id :=
      h.trans (List.map_id attempts).symm
    have hattempt := List.map_inj_left.mp hid attempt hmem
    rwa [if_pos htoken] at hattempt
  · refine (List.map_congr_left fun attempt hmem => ?_).trans (List.map_id attempts)
    split
    · next htoken => exact h attempt hmem htoken
    · rfl

theorem attempt_eq_some {record : Record} (htokens : (record.attempts.map Attempt.token).Nodup) {attempt : Attempt}
    (hmem : attempt ∈ record.attempts) : record.attempt attempt.token = some attempt := by
  obtain ⟨found, hfound⟩ : ∃ found, record.attempts.find? (fun other => other.token == attempt.token) = some found :=
    Option.isSome_iff_exists.mp (List.find?_isSome.mpr ⟨attempt, hmem, beq_self_eq_true attempt.token⟩)
  have hsame : found.token = attempt.token := by simpa using List.find?_some hfound
  rw [Record.attempt, hfound, List.inj_on_of_nodup_map htokens (List.mem_of_find?_eq_some hfound) hmem hsame]

/-- An event under a lost token that is not late changes nothing. -/
theorem event_stale {token : Nat} {event : AgentEvent} {record : Record} (hledger : Numbered record)
    (hstale : record.task.leaseToken ≠ some token)
    (hquiet : (Command.appendEvent token event).notesLate record = false) :
    appendAgentRunEvent token event record = record := by
  have hattempts : settle token (noteEvent event) record.attempts = record.attempts := by
    refine settle_eq_self_iff.mpr fun attempt hmem htoken => noteEvent_eq_iff.mpr ?_
    have hfound := attempt_eq_some hledger.tokens hmem
    rw [htoken] at hfound
    simp only [Command.notesLate, hfound, Option.any_some, Bool.and_eq_false_iff, decide_eq_false_iff_not, not_not,
      bne_eq_false_iff_eq] at hquiet
    exact hquiet.resolve_left hstale
  rw [appendAgentRunEvent, hattempts]

/-- A late event changes its attempt. -/
theorem notesLate_changes {C : Settings} {record record' : Record} {command : Command}
    (hlate : command.notesLate record = true)
    (h : command.apply C record = some record') :
    (∃ token, command.presents = some token ∧ record.task.leaseToken ≠ some token) ∧ record' ≠ record := by
  unfold Command.notesLate at hlate
  split at hlate
  · next token event =>
    rw [Bool.and_eq_true, decide_eq_true_eq, Option.any_eq_true] at hlate
    obtain ⟨hstale, attempt, hattempt, hevents⟩ := hlate
    refine ⟨⟨token, rfl, hstale⟩, fun hsame => ?_⟩
    cases h
    have hsettled : settle token (noteEvent event) record.attempts = record.attempts := congrArg Record.attempts hsame
    have hmem := List.mem_of_find?_eq_some hattempt
    have htoken : attempt.token = token := by simpa using List.find?_some hattempt
    have hfull := noteEvent_eq_iff.mp (settle_eq_self_iff.mp hsettled attempt hmem htoken)
    simp [hfull] at hevents
  · cases hlate

/-- A closed attempt is not written again. -/
theorem closed_kept {record record' : Record} {command : Command} (hledger : Numbered record)
    (h : LedgerMove record command record') (hquiet : command.notesLate record = false) {attempt : Attempt}
    (hmem : attempt ∈ record.attempts) (hclosed : attempt.finishedAt.isSome = true) : attempt ∈ record'.attempts := by
  -- the attempt of the lease is open
  have hother : ∀ token, record.task.leaseToken = some token → attempt.token ≠ token := by
    intro token htoken heq
    obtain ⟨leased, hleased, hsame, hunfinished⟩ := hledger.leased token htoken
    have hunique : leased = attempt :=
      List.inj_on_of_nodup_map hledger.tokens hleased hmem (hsame.trans heq.symm)
    rw [← hunique, hunfinished] at hclosed
    cases hclosed
  cases h with
  | change h =>
    cases h with
    | keep hattempts _ _ => exact hattempts ▸ hmem
    | close token change htoken _ hattempts _ _ =>
      rw [hattempts]
      exact mem_settle.mpr ⟨attempt, hmem, if_neg (hother token htoken)⟩
    | note token event hcommand hnoted =>
      subst hcommand hnoted
      by_cases htoken : record.task.leaseToken = some token
      · exact mem_settle.mpr ⟨attempt, hmem, if_neg (hother token htoken)⟩
      · rw [event_stale hledger htoken hquiet]
        exact hmem
  | take token _ _ _ hattempts _ _ => exact hattempts ▸ List.mem_append_left _ hmem

/-- A claim over an expired lease takes the Task. -/
theorem takesOver_takes {C : Settings} {record record' : Record} {command : Command}
    (htakes : command.takesOver record = true) (h : command.apply C record = some record') :
    record.task.lease.isSome = true ∧ ∃ token, record.attempt token = none ∧ record'.attempts =
      record.attempts ++ [{number := record.task.attemptCount + 1, phase := record.task.status, token := token}] := by
  unfold Command.takesOver at htakes
  split at htakes
  · next now token =>
    obtain ⟨hfresh, rfl⟩ := Record.insert_eq_some.mp h
    rw [Bool.and_eq_true] at htakes
    refine ⟨htakes.2, token, hfresh, ?_⟩
    rw [claim, if_pos htakes.1]
    rfl
  · next now token =>
    obtain ⟨hfresh, rfl⟩ := Record.insert_eq_some.mp h
    rw [Bool.and_eq_true, Bool.and_eq_true] at htakes
    refine ⟨htakes.1.2, token, hfresh, ?_⟩
    rw [claimInline, if_pos (Bool.and_eq_true_iff.mpr ⟨htakes.1.1, htakes.2⟩)]
    rfl
  · cases htakes

/-- It leaves the attempt of that lease open beside its own. -/
theorem takesOver_leaves_two_open {C : Settings} {record record' : Record} {command : Command}
    (hledger : Numbered record)
    (htakes : command.takesOver record = true) (h : command.apply C record = some record') :
    ∃ first ∈ record'.attempts, ∃ second ∈ record'.attempts,
      first.finishedAt = none ∧ second.finishedAt = none ∧ first.token ≠ second.token := by
  obtain ⟨hlease, token, hfresh, hattempts⟩ := takesOver_takes htakes h
  obtain ⟨lease, hlease⟩ := Option.isSome_iff_exists.mp hlease
  obtain ⟨leased, hleased, htoken, hopen⟩ := hledger.leased lease.token (by simp [Task.leaseToken, hlease])
  rw [hattempts]
  refine ⟨leased, List.mem_append_left _ hleased, _,
    List.mem_append_right _ (List.mem_singleton_self _), hopen, rfl, ?_⟩
  intro heq
  have hmem : leased.token ∈ record.attempts.map Attempt.token := List.mem_map_of_mem hleased
  have hsame : leased.token = token := heq
  exact fresh_token hfresh (hsame ▸ hmem)

/-- A worker whose token is no longer the one of the row changes nothing, but by a late event. -/
theorem stale_worker {C : Settings} {record record' : Record} {command : Command} {token : Nat}
    (hledger : Numbered record)
    (hpresents : command.presents = some token) (hstale : record.task.leaseToken ≠ some token)
    (hquiet : command.notesLate record = false) (h : command.apply C record = some record') : record' = record := by
  cases command with
  | releaseUnstarted now token' =>
    cases hpresents
    cases h
    obtain hsame | ⟨htoken, _⟩ := releaseUnstartedClaim_cases C now token record
    · exact hsame
    · exact absurd htoken hstale
  | renew now token' =>
    cases hpresents
    cases h
    obtain hsame | ⟨htoken, _⟩ := renewLease_cases C now token record
    · exact hsame
    · exact absurd htoken hstale
  | complete now token' =>
    cases hpresents
    obtain hsame | ⟨htoken, _⟩ := complete_cases h
    · exact hsame
    · exact absurd htoken hstale
  | fail now token' exc =>
    cases hpresents
    obtain ⟨attempt, _, hfail⟩ := fail_eq_some h
    rw [failClaim_stale hstale] at hfail
    exact (Option.some.inj hfail).symm
  | release now token' =>
    cases hpresents
    obtain ⟨_, hsame⟩ | ⟨htoken, _⟩ := releaseCancelledClaim_cases h
    · exact hsame
    · exact absurd htoken hstale
  | finishInline now token' error cancelled =>
    cases hpresents
    obtain ⟨_, hsame⟩ | ⟨htoken, _⟩ := finishInlineExecution_cases h
    · exact hsame
    · exact absurd htoken hstale
  | activate now token' fresh =>
    cases hpresents
    exact absurd (ownsRun_lease (activateAgentRun_eq_some h).1).1 hstale
  | progress now token' checkpoint result =>
    cases hpresents
    exact absurd (ownsRun_lease (persistAgentRunState_eq_some h).1).1 hstale
  | appendEvent token' event =>
    cases hpresents
    cases h
    exact event_stale hledger hstale hquiet
  | _ => cases hpresents

/-! ### Runs -/

/-- The row of a Task that no worker has claimed. -/
structure Unclaimed (record : Record) : Prop where
  attempts : record.attempts = []
  count : record.task.attemptCount = 0
  lease : record.task.lease = none

/-- The attempts that are open. -/
def Record.openAttempts (record : Record) : List Attempt :=
    record.attempts.filter fun attempt => attempt.finishedAt.isNone

theorem Record.mem_openAttempts {record : Record} {attempt : Attempt} :
    attempt ∈ record.openAttempts ↔ attempt ∈ record.attempts ∧ attempt.finishedAt = none := by
  simp [Record.openAttempts]

/-- The ledger of a Task. -/
structure Ledger (record : Record) : Prop where
  numbers : record.attempts.map Attempt.number = List.range' 1 record.task.attemptCount
  single : record.openAttempts.length ≤ 1
  leased : ∀ token, record.task.leaseToken = some token →
    ∃ attempt ∈ record.attempts, attempt.token = token ∧ attempt.finishedAt = none

/-- In the runs whose steps meet `allowed`, the ledger is in order, a closed attempt is not written
again, and a worker with a lost token changes nothing. -/
structure LedgerKept (C : Settings) (allowed : Record → Command → Prop) : Prop where
  ledger : ∀ unclaimed commands record, Unclaimed unclaimed →
    RunsWhile C allowed unclaimed commands record → Ledger record
  closed : ∀ unclaimed commands record later record', Unclaimed unclaimed →
    RunsWhile C allowed unclaimed commands record →
    RunsWhile C allowed record later record' →
    ∀ attempt ∈ record.attempts, attempt.finishedAt.isSome = true → attempt ∈ record'.attempts
  stale : ∀ unclaimed commands record (command : Command) token record', Unclaimed unclaimed →
    RunsWhile C allowed unclaimed commands record → allowed record command → command.presents = some token →
    record.task.leaseToken ≠ some token → command.apply C record = some record' → record' = record

theorem Unclaimed.numbered {record : Record} (h : Unclaimed record) : Numbered record := by
  refine ⟨by rw [h.attempts, h.count]; rfl, by rw [h.attempts]; exact List.nodup_nil, fun token htoken => ?_⟩
  rw [leaseToken_none h.lease] at htoken
  cases htoken

theorem Numbered.run {C : Settings} {allowed : Record → Command → Prop} {record record' : Record}
    {commands : List Command}
    (hledger : Numbered record) (hrun : RunsWhile C allowed record commands record') : Numbered record' :=
  hrun.invariant (fun _ _ _ hnumbered hstep => hnumbered.move (ledger_move hstep.2)) hledger

/-- One element at most, when all of them are the same. -/
theorem length_le_one_iff {α : Type} {l : List α} (hnodup : l.Nodup) : l.length ≤ 1 ↔ ∀ a ∈ l, ∀ b ∈ l, a = b := by
  match l, hnodup with
  | [], _ => simp
  | [a], _ => simp
  | a :: b :: rest, hnodup =>
    refine ⟨fun h => by simp at h, fun h => ?_⟩
    have hsame := h a List.mem_cons_self b (List.mem_cons_of_mem _ List.mem_cons_self)
    rw [hsame] at hnodup
    exact absurd List.mem_cons_self (List.nodup_cons.mp hnodup).1

theorem Numbered.openAttempts_nodup {record : Record} (hledger : Numbered record) : record.openAttempts.Nodup :=
  (List.Nodup.of_map _ hledger.tokens).filter _

/-- Attempts that have the lease are one. -/
theorem OpenLeased.length_le_one {record : Record} (hledger : Numbered record) (hopen : OpenLeased record) :
    record.openAttempts.length ≤ 1 := by
  refine (length_le_one_iff hledger.openAttempts_nodup).mpr fun first hfirst second hsecond => ?_
  obtain ⟨hmem, hunfinished⟩ := Record.mem_openAttempts.mp hfirst
  obtain ⟨hmem', hunfinished'⟩ := Record.mem_openAttempts.mp hsecond
  have hlease := (hopen first hmem hunfinished).symm.trans (hopen second hmem' hunfinished')
  exact List.inj_on_of_nodup_map hledger.tokens hmem hmem' (Option.some.inj hlease)

/-- The ledger is kept in every run whose claims find no lease on the row and whose events are noted
under its lease. A claim over an expired lease leaves two attempts open, and the event of a worker that
lost its lease is written. -/
theorem ledger_while_not_taken_over (C : Settings) :
    LedgerKept C (fun record command => command.takesOver record = false ∧ command.notesLate record = false) ∧
      ∀ (unclaimed : Record) (commands : List Command) (record : Record) (command : Command) (record' : Record),
        Unclaimed unclaimed → Runs C unclaimed commands record → command.apply C record = some record' →
        (command.takesOver record = true → ¬Ledger record') ∧
        (command.notesLate record = true →
          (∃ token, command.presents = some token ∧ record.task.leaseToken ≠ some token) ∧ record' ≠ record) := by
  refine ⟨⟨?_, ?_, ?_⟩, ?_⟩
  · intro unclaimed commands record hunclaimed hrun
    have hinvariant : Numbered record ∧ OpenLeased record := by
      refine hrun.invariant (P := fun record => Numbered record ∧ OpenLeased record) ?_ ⟨hunclaimed.numbered, ?_⟩
      · intro before command after hbefore hstep
        have hmove := ledger_move hstep.2
        exact ⟨hbefore.1.move hmove, hbefore.2.move hmove hstep.1.1⟩
      · intro attempt hmem
        rw [hunclaimed.attempts] at hmem
        cases hmem
    exact ⟨hinvariant.1.numbers, hinvariant.2.length_le_one hinvariant.1, hinvariant.1.leased⟩
  · intro unclaimed commands record later record' hunclaimed hrun hlater attempt hmem hclosed
    have hnumbered := hunclaimed.numbered.run hrun
    have hinvariant : Numbered record' ∧ attempt ∈ record'.attempts := by
      refine hlater.invariant (P := fun record => Numbered record ∧ attempt ∈ record.attempts) ?_ ⟨hnumbered, hmem⟩
      intro before command after hbefore hstep
      have hmove := ledger_move hstep.2
      exact ⟨hbefore.1.move hmove, closed_kept hbefore.1 hmove hstep.1.2 hbefore.2 hclosed⟩
    exact hinvariant.2
  · intro unclaimed commands record command token record' hunclaimed hrun hallowed hpresents hstale happly
    exact stale_worker (hunclaimed.numbered.run hrun) hpresents hstale hallowed.2 happly
  · intro unclaimed commands record command record' hunclaimed hrun happly
    refine ⟨fun htakes hledger => ?_, fun hlate => notesLate_changes hlate happly⟩
    have hnumbered : Numbered record :=
      hrun.invariant (fun _ _ _ hbefore hstep => hbefore.move (ledger_move hstep)) hunclaimed.numbered
    obtain ⟨first, hfirst, second, hsecond, hopen, hopen', hdistinct⟩ :=
      takesOver_leaves_two_open hnumbered htakes happly
    have hsame := (length_le_one_iff (hnumbered.move (ledger_move happly)).openAttempts_nodup).mp hledger.single
      first (Record.mem_openAttempts.mpr ⟨hfirst, hopen⟩) second (Record.mem_openAttempts.mpr ⟨hsecond, hopen'⟩)
    exact hdistinct (congrArg Attempt.token hsame)

/-- A Task whose worker stalls for longer than its lease of 120 seconds. -/
def stalled : Record :=
  ⟨{status := .create, lease := some ⟨1, 120⟩, attemptCount := 1}, [{number := 1, phase := .create, token := 1}]⟩

/-- The normal queue takes it over, and leaves both attempts open. -/
theorem stalled_claim_is_taken_over : ¬LedgerKept .shipped fun _ _ => True := by
  intro hkept
  have hrun : RunsWhile .shipped (fun _ _ => True) ⟨{status := .create}, []⟩ [.claim 0 1, .claim 200 2]
      (claimLockedTask .shipped 200 2 stalled) :=
    .cons (t := stalled) ⟨trivial, by decide⟩ (.single ⟨trivial, by decide⟩)
  have hledger := hkept.ledger _ _ _ ⟨rfl, rfl, rfl⟩ hrun
  exact absurd hledger.single (by decide)

end Galaris.Tasks
