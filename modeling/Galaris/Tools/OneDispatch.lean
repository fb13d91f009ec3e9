import Galaris.Tools.Authorization

/-! One authorization, one dispatch.

Apart from a decision and a claim, an operation only moves the status of a request towards
its end (`Quiet`), so that each promise is shown for the decision, for the claim and for one
relation. The clock is the exception: `claim_action` compares the expiry with a time that it
read before it waited for its locks (`late`). -/
namespace Galaris.Tools

open Transition

/-! ### What an operation does to a request -/

/-- A status that neither a decision nor a claim writes. -/
def RequestStatus.settles : RequestStatus → RequestStatus → Bool
  | .pending, .expired | .pending, .invalidated | .approved, .expired | .approved, .invalidated => true
  | .executing, .completed | .executing, .failed | .executing, .outcomeUnknown | .executing, .invalidated => true
  | .outcomeUnknown, .completed | .outcomeUnknown, .failed => true
  | before, after => before == after

/-- Not claimed: it may still be, or it was closed before. -/
def RequestStatus.unclaimed : RequestStatus → Bool
  | .pending | .approved | .denied | .expired => true
  | _ => false

theorem RequestStatus.settles_refl (status : RequestStatus) : status.settles status = true := by
  cases status <;> rfl

theorem RequestStatus.settles_trans {a b c : RequestStatus} (hab : a.settles b = true) (hbc : b.settles c = true) :
    a.settles c = true := by
  cases a <;> cases b <;> first | exact hbc | (exfalso; revert hab; decide) | skip
  all_goals cases c <;> first | rfl | (exfalso; revert hbc; decide)

/-- What an operation leaves pending, approved or unclaimed was so before. -/
theorem RequestStatus.settles_back {a b : RequestStatus} (h : a.settles b = true) :
    (b = .pending → a = .pending) ∧ (b = .approved → a = .approved) ∧ (b.unclaimed = true → a.unclaimed = true) := by
  revert h
  cases a <;> cases b <;> decide

/-- Nothing follows a closed status. -/
theorem RequestStatus.closed_settles {a b : RequestStatus} (ha : a.closed = true) (h : a.settles b = true) : b = a := by
  cases a <;> cases b <;> first | rfl | (exfalso; revert ha; decide) | (exfalso; revert h; decide)

namespace Request

/-- The row is the same request, at the same point of its deferred dispatch, with a status nearer to its end. -/
structure Quiet (row row' : Request) : Prop where
  terms : row'.terms = row.terms
  expiresAt : row'.expiresAt = row.expiresAt
  expected : row'.dispatchExpected = row.dispatchExpected
  dispatched : row'.dispatchClaimedAt = row.dispatchClaimedAt
  status : row.status.settles row'.status = true

theorem Quiet.refl (row : Request) : Quiet row row := ⟨rfl, rfl, rfl, rfl, row.status.settles_refl⟩

theorem Quiet.trans {row row' row'' : Request} (h : Quiet row row') (h' : Quiet row' row'') : Quiet row row'' :=
  ⟨h'.terms.trans h.terms, h'.expiresAt.trans h.expiresAt, h'.expected.trans h.expected,
    h'.dispatched.trans h.dispatched, RequestStatus.settles_trans h.status h'.status⟩

/-- An open request may expire or be invalidated. -/
theorem open_settles {status : RequestStatus} (h : status.open' = true) :
    status.settles .expired = true ∧ status.settles .invalidated = true := by
  cases status <;> first | exact ⟨rfl, rfl⟩ | cases h

theorem invalidate_quiet (row : Request) (now : Nat) : Quiet row (row.invalidate now) := by
  unfold invalidate
  split
  case isTrue hopen => exact ⟨rfl, rfl, rfl, rfl, (open_settles hopen).2⟩
  case isFalse => exact .refl row

theorem expire_quiet (row : Request) (now : Nat) : Quiet row (row.expire now) := by
  unfold expire
  split
  case isTrue hover =>
    have hopen : row.status.open' = true := by
      rw [Bool.and_eq_true] at hover
      exact hover.1
    exact ⟨rfl, rfl, rfl, rfl, (open_settles hopen).1⟩
  case isFalse => exact .refl row

theorem abandon_quiet (row : Request) (now : Nat) : Quiet row (row.abandon now) := by
  unfold abandon
  split
  case isTrue hover =>
    rw [Bool.and_eq_true, beq_iff_eq] at hover
    refine ⟨rfl, rfl, rfl, rfl, ?_⟩
    rw [hover.1]
    rfl
  case isFalse => exact .refl row

theorem finish_quiet (row : Request) (outcome : Outcome) (receipt deferred : Bool) (now : Nat) :
    Quiet row (row.finish outcome receipt deferred now) := by
  unfold finish
  split
  case isTrue => exact .refl row
  case isFalse hstatus =>
    split
    case isTrue => exact .refl row
    case isFalse =>
      refine ⟨rfl, rfl, rfl, rfl, ?_⟩
      have hfinal : row.status = .executing ∨ (row.status = .outcomeUnknown ∧ outcome ≠ .outcomeUnknown) := by
        by_cases hexecuting : row.status = .executing
        · exact .inl hexecuting
        · simp [hexecuting] at hstatus
          exact .inr hstatus.1
      obtain hrun | ⟨hunknown, hknown⟩ := hfinal
      · rw [hrun]
        cases outcome <;> rfl
      · rw [hunknown]
        cases outcome
        · rfl
        · rfl
        · exact absurd rfl hknown

theorem settle_quiet (row : Request) (readAt : Nat) : Quiet row (row.settle readAt) := by
  unfold settle
  split
  · exact ⟨rfl, rfl, rfl, rfl, row.status.settles_refl⟩
  · exact .refl row

/-- What the revalidation leaves open is not over and has the terms presented. -/
theorem revalidate_cases (row : Request) (call : Call) (terms : Terms) (permission : Option RuntimePermission) :
    Quiet row (row.revalidate call terms permission) ∧
      ((row.revalidate call terms permission).status.open' = true →
        row.revalidate call terms permission = row ∧ row.terms = terms ∧ call.readAt < row.expiresAt) := by
  unfold revalidate
  split
  case isTrue hopen =>
    refine ⟨.refl row, fun h => ?_⟩
    rw [h] at hopen
    cases hopen
  case isFalse hopen =>
    have hopen : row.status.open' = true := by simpa using hopen
    split
    case isTrue => exact ⟨⟨rfl, rfl, rfl, rfl, (open_settles hopen).1⟩, nofun⟩
    case isFalse htime =>
      split
      case isTrue => exact ⟨⟨rfl, rfl, rfl, rfl, (open_settles hopen).2⟩, nofun⟩
      case isFalse hterms =>
        refine ⟨.refl row, fun _ => ⟨rfl, ?_, Nat.lt_of_not_le htime⟩⟩
        simp only [Bool.or_eq_true, not_or, decide_eq_true_eq] at hterms
        exact Decidable.not_not.mp hterms.1.1

/-- A claim executes an approved request with the terms presented, whose time was not over when the
caller read the clock; otherwise it changes no more than the status, towards the end. -/
theorem claim_cases (row : Request) (call : Call) (terms : Terms) (view : ClaimView) :
    (row.claim call terms view).2 = .claimed ∧ row.status = .approved ∧ row.terms = terms ∧
        call.readAt < row.expiresAt ∧
        (row.claim call terms view).1 = {row with status := .executing, claimedAt := some call.readAt} ∨
      (row.claim call terms view).2 ≠ .claimed ∧ Quiet row (row.claim call terms view).1 := by
  obtain ⟨hquiet, hopen⟩ := revalidate_cases row call terms view.permission
  unfold claim
  generalize row.revalidate call terms view.permission = valid at hquiet hopen
  unfold consume
  split
  case isTrue => exact .inr ⟨nofun, hquiet.trans (settle_quiet valid _)⟩
  case isFalse =>
    cases hstatus : valid.status with
    | approved =>
      obtain ⟨rfl, hterms, htime⟩ := hopen (by rw [hstatus]; rfl)
      cases hready : view.dispatchReady with
      | true => exact .inl ⟨rfl, hstatus, hterms, htime, rfl⟩
      | false => exact .inr ⟨nofun, settle_quiet valid _⟩
    | _ => exact .inr ⟨nofun, hquiet.trans (settle_quiet valid _)⟩

/-- The same request, for what a decision may not change. -/
structure Kept (row row' : Request) : Prop where
  approver : row'.terms.approver = row.terms.approver
  expiresAt : row'.expiresAt = row.expiresAt
  expected : row'.dispatchExpected = row.dispatchExpected
  dispatched : row'.dispatchClaimedAt = row.dispatchClaimedAt

theorem decide_cases (row : Request) (approved : Bool) (now : Nat) :
    Kept row (row.decide' approved now) ∧
      ((row.decide' approved now).status = .approved ∧ (row.decide' approved now).decidedAt = some now ∨
        (row.decide' approved now).status = .denied ∧ (row.decide' approved now).decidedAt = some now ∨
        (row.decide' approved now).status = .expired) := by
  unfold decide'
  split
  · exact ⟨⟨rfl, rfl, rfl, rfl⟩, .inr (.inr rfl)⟩
  · split
    · exact ⟨⟨rfl, rfl, rfl, rfl⟩, .inl ⟨rfl, rfl⟩⟩
    · exact ⟨⟨rfl, rfl, rfl, rfl⟩, .inr (.inl ⟨rfl, rfl⟩)⟩

theorem remember_kept {row row' : Request} {answer : Answer} {now : Nat} (h : row.remember answer now = some row') :
    Kept row row' := by
  unfold remember at h
  split at h
  · cases h
  · split at h
    · cases h
      exact ⟨rfl, rfl, rfl, rfl⟩
    · split at h
      · cases h
      · cases h
        exact ⟨rfl, rfl, rfl, rfl⟩

/-- A decision is taken on a pending request, by its approver. -/
theorem answer_cases {row row' : Request} {answer : Answer} {now : Nat} (h : row.answer answer now = some row') :
    row.status = .pending ∧ row.terms.approver = answer.user ∧ Kept row row' ∧
      (row'.status = .approved ∧ row'.decidedAt = some now ∨ row'.status = .denied ∧ row'.decidedAt = some now ∨
        row'.status = .expired) := by
  unfold Request.answer at h
  split at h
  · cases h
  case isFalse hentitled =>
    have huser : row.terms.approver = answer.user := by
      simp only [Bool.or_eq_true, not_or, decide_eq_true_eq] at hentitled
      exact Decidable.not_not.mp hentitled.2
    split at h
    · cases h
    · split at h
      · cases h
      case isFalse hpending =>
        have hpending : row.status = .pending := by simpa using hpending
        split at h
        · cases h
        · obtain ⟨chosen, hchosen, rfl⟩ := Option.map_eq_some_iff.mp h
          have hkept : Kept row chosen := by
            split at hchosen
            · exact remember_kept hchosen
            · cases hchosen
              exact ⟨rfl, rfl, rfl, rfl⟩
          obtain ⟨hdecided, hstatus⟩ := decide_cases chosen answer.approved now
          exact ⟨hpending, huser, ⟨hdecided.approver.trans hkept.approver, hdecided.expiresAt.trans hkept.expiresAt,
            hdecided.expected.trans hkept.expected, hdecided.dispatched.trans hkept.dispatched⟩, hstatus⟩

/-- A deferred dispatch is claimed while the request executes, once. -/
theorem claimDispatch_cases (row : Request) (view : DispatchView) (continuation : Bool) (now : Nat) :
    (row.claimDispatch view continuation now).2 = .dispatched ∧ row.status = .executing ∧
        row.dispatchExpected = true ∧ row.dispatchClaimedAt = none ∧
        (row.claimDispatch view continuation now).1 = {row with dispatchClaimedAt := some now} ∨
      (row.claimDispatch view continuation now).2 ≠ .dispatched ∧
        Quiet row (row.claimDispatch view continuation now).1 := by
  unfold claimDispatch
  split
  case isTrue => exact .inr ⟨nofun, .refl row⟩
  case isFalse hclaimable =>
    split
    case isTrue =>
      refine .inr ⟨nofun, ?_⟩
      split
      case isTrue hrun =>
        refine ⟨rfl, rfl, rfl, rfl, ?_⟩
        rw [hrun]
        rfl
      case isFalse => exact .refl row
    case isFalse =>
      split
      case isTrue => exact .inr ⟨nofun, .refl row⟩
      case isFalse =>
        cases continuation with
        | true => exact .inr ⟨nofun, .refl row⟩
        | false =>
          simp at hclaimable
          exact .inl ⟨rfl, hclaimable.1.1, hclaimable.1.2, hclaimable.2, rfl⟩

end Request

/-! ### What a step does -/

/-- A claim that read the clock before the request expires gets its locks afterwards. -/
def Operation.late (op : Operation) : OperationEvent → Bool
  | .claim i view => op.calls[i]?.any fun call =>
    match op.row with
    | some row => row.status == .approved && call.readAt < row.expiresAt && row.expiresAt ≤ op.now
    | none => call.action.runtimeTool && view.permission.isSome && call.readAt + day ≤ op.now
  | _ => false

def OperationEvent.releases : OperationEvent → Bool
  | .releaseBuffered => true
  | _ => false

/-- What a step makes of a request and of the history. -/
inductive Change (now : Nat) (late releases : Bool) : History → Request → History → Request → Prop
  | quiet {history : History} {row row' : Request} :
    Request.Quiet row row' → Change now late releases history row history row'
  | released {history : History} {row : Request} : releases = true → row.status = .executing →
      Change now late releases history row history {row with dispatchClaimedAt := none}
  | decided {history : History} {row row' : Request} : row.status = .pending → Request.Kept row row' →
      (row'.status = .approved ∧ row'.decidedAt = some now ∨ row'.status = .denied ∧ row'.decidedAt = some now ∨
        row'.status = .expired) →
      Change now late releases history row {history with decisions := history.decisions ++ row'.decision} row'
  | claimed {history : History} {row : Request} {readAt : Nat} : row.status = .approved →
      (late = false → now < row.expiresAt) →
      Change now late releases history row {history with grants := history.grants ++ [⟨row.terms, now⟩]}
        {row with status := .executing, claimedAt := some readAt}
  | prepared {history : History} {row : Request} {payload : Fingerprint} : row.status = .executing →
      row.dispatchExpected = false →
      Change now late releases history row {history with prepared := history.prepared ++ [payload]}
        {row with dispatchExpected := true, deferredPayload := some payload}
  | dispatched {history : History} {row : Request} : row.status = .executing → row.dispatchClaimedAt = none →
      Change now late releases history row {history with dispatches := history.dispatches ++ [row.status]}
        {row with dispatchClaimedAt := some now}

namespace Operation

theorem onRow_eq_some {op op' : Operation} {f : Request → Request} (h : op.onRow f = some op') :
    ∃ row, op.row = some row ∧ op' = {op with row := some (f row)} := by
  obtain ⟨row, hrow, rfl⟩ := Option.map_eq_some_iff.mp h
  exact ⟨row, hrow, rfl⟩

/-- A claim of a request that is there. -/
theorem claim_change (row : Request) (call : Call) (terms : Terms) (view : ClaimView) (history : History) (now : Nat)
    (late releases : Bool)
    (htime : row.status = .approved → call.readAt < row.expiresAt → late = false → now < row.expiresAt) :
    Change now late releases history row
      {history with grants := if (row.claim call terms view).2 = .claimed then history.grants ++ [⟨terms, now⟩]
        else history.grants}
      (row.claim call terms view).1 := by
  obtain ⟨hclaimed, happroved, rfl, hread, hrow⟩ | ⟨hnot, hquiet⟩ := Request.claim_cases row call terms view
  · rw [if_pos hclaimed, hrow]
    exact .claimed happroved (htime happroved hread)
  · rw [if_neg hnot]
    exact .quiet hquiet

/-- A claim that is turned away before it reaches the request changes nothing. -/
theorem claimed_unchanged (op : Operation) (call : Call) (view : ClaimView) {result : ClaimResult}
    (hresult : result ≠ .claimed) : op.claimed call view (op.row, result) = op := by
  unfold claimed
  split
  · rfl
  · have hkept : (op.row.isNone && op.row.isSome) = false := by cases op.row <;> rfl
    simp [hresult, hkept]

/-- The transaction of a claim reaches the request that is there, or creates it, or changes nothing. -/
theorem claimed_cases (op : Operation) (call : Call) (view : ClaimView) :
    op.claimed call view (claimAction call view op.row) = op ∨
      ∃ terms row, (op.row = some row ∨ op.row = none ∧ row = call.request terms view.permission) ∧
        op.claimed call view (claimAction call view op.row) = {op with
          row := some (row.claim call terms view).1
          history := {op.history with
            decisions := if op.row.isNone then row.decision else op.history.decisions
            grants := if (row.claim call terms view).2 = .claimed then op.history.grants ++ [⟨terms, op.now⟩]
              else op.history.grants}} := by
  have hrejected : ∀ result : ClaimResult, result ≠ .claimed → claimAction call view op.row = (op.row, result) →
      op.claimed call view (claimAction call view op.row) = op := by
    intro result hresult heq
    rw [heq]
    exact claimed_unchanged op call view hresult
  cases hresolved : view.resolved with
  | none => exact .inl (hrejected .rejected nofun (by simp only [claimAction, hresolved]))
  | some resolved =>
    obtain ⟨mode, origin⟩ := resolved
    by_cases hmode : mode = .disabled
    · subst hmode
      exact .inl (hrejected .rejected nofun (by simp only [claimAction, hresolved]))
    cases hactive : view.approverActive with
    | false => exact .inl (hrejected .rejected nofun (by cases mode <;> simp_all [claimAction]))
    | true =>
      cases hrow : op.row with
      | some row =>
        refine .inr ⟨call.terms view mode origin, row, .inl rfl, ?_⟩
        cases mode <;> simp_all [claimAction, claimed]
      | none =>
        by_cases htoken : call.action.continuation.isSome = true
        · exact .inl (hrow ▸ hrejected (.closed .invalidated) nofun (by cases mode <;> simp_all [claimAction]))
        by_cases henabled : mode = .enabled
        · exact .inl (hrow ▸ hrejected .unrequested nofun (by simp_all [claimAction]))
        cases hrefused : view.refused with
        | true => exact .inl (hrow ▸ hrejected (.closed .denied) nofun (by cases mode <;> simp_all [claimAction]))
        | false =>
          cases hquota : view.quotaFull with
          | true => exact .inl (hrow ▸ hrejected .rejected nofun (by cases mode <;> simp_all [claimAction]))
          | false =>
            refine .inr ⟨call.terms view mode origin, _, .inr ⟨rfl, rfl⟩, ?_⟩
            cases mode <;> simp_all [claimAction, claimed]

/-- A step leaves an operation without request as it is, or creates the request first; it changes a request
that is there. -/
theorem step_cases {op op' : Operation} {event : OperationEvent} (h : op.apply event = some op') :
    (op'.row = op.row ∧ op'.history = op.history) ∨
      (∃ row row', op.row = some row ∧ op'.row = some row' ∧
        Change op.now (op.late event) event.releases op.history row op'.history row') ∨
      (op.row = none ∧ ∃ call terms permission row', op'.row = some row' ∧
        Change op.now (op.late event) event.releases
          {op.history with decisions := (Call.request call terms permission).decision}
          (Call.request call terms permission)
          op'.history row') := by
  cases event with
  | wait seconds =>
    cases h
    exact .inl ⟨rfl, rfl⟩
  | present action =>
    simp only [apply] at h
    split at h
    · cases h
      exact .inl ⟨rfl, rfl⟩
    · cases h
  | claim i view =>
    obtain ⟨call, hcall, rfl⟩ := Option.map_eq_some_iff.mp h
    obtain hsame | ⟨terms, row, hrow, heq⟩ := claimed_cases {op with calls := op.calls.eraseIdx i} call view
    · exact .inl ⟨congrArg (·.row) hsame, congrArg (·.history) hsame⟩
    · rw [heq]
      obtain hrow | ⟨hnone, rfl⟩ := hrow
      · replace hrow : op.row = some row := hrow
        refine .inr (.inl ⟨row, _, hrow, rfl, ?_⟩)
        simp only [hrow, Option.isNone_some, Bool.false_eq_true, if_false]
        refine claim_change row call terms view op.history op.now _ _ fun happroved hread hlate => ?_
        simp only [late, hcall, hrow, Option.any_some, happroved, beq_self_eq_true, Bool.true_and, hread, decide_true,
          decide_eq_false_iff_not] at hlate
        exact Nat.lt_of_not_le hlate
      · replace hnone : op.row = none := hnone
        refine .inr (.inr ⟨hnone, call, terms, view.permission, _, rfl, ?_⟩)
        simp only [hnone, Option.isNone_none, if_true]
        refine claim_change _ call terms view {op.history with decisions := _} op.now _ _ fun happroved _ hlate => ?_
        have hremembered : call.action.runtimeTool = true ∧ view.permission.isSome = true := by
          revert happroved
          unfold Call.request
          cases call.action.runtimeTool <;> cases view.permission <;> simp
        simp only [late, hcall, hnone, Option.any_some, hremembered.1, hremembered.2, Bool.true_and,
          decide_eq_false_iff_not] at hlate
        exact Nat.lt_of_not_le hlate
  | answer answer =>
    obtain ⟨row, hrow, h⟩ := Option.bind_eq_some_iff.mp h
    obtain ⟨row', hanswer, rfl⟩ := Option.map_eq_some_iff.mp h
    obtain ⟨hpending, -, hkept, hstatus⟩ := Request.answer_cases hanswer
    exact .inr (.inl ⟨row, row', hrow, rfl, .decided hpending hkept hstatus⟩)
  | invalidate =>
    obtain ⟨row, hrow, rfl⟩ := onRow_eq_some h
    exact .inr (.inl ⟨row, _, hrow, rfl, .quiet (row.invalidate_quiet _)⟩)
  | expire =>
    obtain ⟨row, hrow, rfl⟩ := onRow_eq_some h
    exact .inr (.inl ⟨row, _, hrow, rfl, .quiet (row.expire_quiet _)⟩)
  | abandon =>
    obtain ⟨row, hrow, rfl⟩ := onRow_eq_some h
    exact .inr (.inl ⟨row, _, hrow, rfl, .quiet (row.abandon_quiet _)⟩)
  | finish outcome receipt deferred =>
    obtain ⟨row, hrow, rfl⟩ := onRow_eq_some h
    exact .inr (.inl ⟨row, _, hrow, rfl, .quiet (row.finish_quiet _ _ _ _)⟩)
  | registerDispatch payload =>
    obtain ⟨row, hrow, h⟩ := Option.bind_eq_some_iff.mp h
    obtain ⟨row', hregister, rfl⟩ := Option.map_eq_some_iff.mp h
    unfold Request.registerDispatch at hregister
    split at hregister
    · cases hregister
    case isFalse hready =>
      cases hregister
      simp at hready
      exact .inr (.inl ⟨row, _, hrow, rfl, .prepared hready.1 hready.2⟩)
  | claimDispatch view continuation =>
    obtain ⟨row, hrow, rfl⟩ := Option.map_eq_some_iff.mp h
    obtain ⟨hdispatched, hrun, -, hunclaimed, hrow'⟩ | ⟨hnot, hquiet⟩ :=
      Request.claimDispatch_cases row view continuation op.now
    · refine .inr (.inl ⟨row, _, hrow, rfl, ?_⟩)
      simp only [if_pos hdispatched, hrow']
      exact .dispatched hrun hunclaimed
    · refine .inr (.inl ⟨row, _, hrow, rfl, ?_⟩)
      simp only [if_neg hnot]
      exact .quiet hquiet
  | releaseBuffered =>
    obtain ⟨row, hrow, rfl⟩ := onRow_eq_some h
    refine .inr (.inl ⟨row, _, hrow, rfl, ?_⟩)
    unfold Request.releaseBuffered
    split
    case isTrue hrun => exact .released rfl hrun.1
    case isFalse => exact .quiet (.refl row)

end Operation

/-! ### The invariant -/

/-- The history agrees with the row. -/
structure Recorded (history : History) (row : Request) : Prop where
  pending : row.status = .pending → history.decisions = []
  approved : row.status = .approved → ∃ at', history.decisions = [⟨true, row.terms, at'⟩]
  one : history.decisions.length ≤ 1
  /-- A request that may still be claimed, or was closed before a claim, was not executed. -/
  unclaimed : row.status.unclaimed = true → history.grants = []
  once : history.grants.length ≤ 1
  granted : ∀ grant ∈ history.grants, ∃ decision ∈ history.decisions, decision.approved = true ∧
    decision.terms = grant.terms
  prepared : history.prepared.length = if row.dispatchExpected then 1 else 0
  executing : ∀ status ∈ history.dispatches, status = .executing

/-- A row that was just created has no history but the decision of a remembered permission. -/
theorem Recorded.created (call : Call) (terms : Terms) (permission : Option RuntimePermission) :
    Recorded ⟨(call.request terms permission).decision, [], [], []⟩ (call.request terms permission) := by
  refine ⟨?_, ?_, ?_, fun _ => rfl, Nat.zero_le 1, nofun, rfl, nofun⟩
  · unfold Call.request Request.decision
    split <;> split <;> simp_all
  · unfold Call.request Request.decision
    split <;> split <;> simp_all
  · unfold Request.decision
    split <;> simp

theorem Recorded.change {now : Nat} {late releases : Bool} {history history' : History} {row row' : Request}
    (h : Recorded history row) (hchange : Change now late releases history row history' row') :
    Recorded history' row' := by
  cases hchange with
  | quiet hquiet =>
    obtain ⟨hpending, happroved, hunclaimed⟩ := RequestStatus.settles_back hquiet.status
    refine ⟨fun hstatus => h.pending (hpending hstatus), fun hstatus => ?_, h.one,
      fun hstatus => h.unclaimed (hunclaimed hstatus), h.once, h.granted, ?_, h.executing⟩
    · rw [hquiet.terms]
      exact h.approved (happroved hstatus)
    · rw [hquiet.expected]
      exact h.prepared
  | released _ hrun => exact ⟨h.pending, h.approved, h.one, h.unclaimed, h.once, h.granted, h.prepared, h.executing⟩
  | decided hpending hkept hstatus =>
    have hnone : history.decisions = [] := h.pending hpending
    have hgrants : history.grants = [] := h.unclaimed (by rw [hpending]; rfl)
    refine ⟨?_, ?_, ?_, fun _ => hgrants, h.once, ?_, ?_, h.executing⟩
    · intro hagain
      obtain ⟨happroved, -⟩ | ⟨hdenied, -⟩ | hexpired := hstatus
      · rw [happroved] at hagain
        cases hagain
      · rw [hdenied] at hagain
        cases hagain
      · rw [hexpired] at hagain
        cases hagain
    · intro happroved
      obtain ⟨-, hat⟩ | ⟨hdenied, -⟩ | hexpired := hstatus
      · refine ⟨now, ?_⟩
        show history.decisions ++ row'.decision = _
        rw [hnone, List.nil_append]
        unfold Request.decision
        rw [happroved, hat]
      · rw [hdenied] at happroved
        cases happroved
      · rw [hexpired] at happroved
        cases happroved
    · show (history.decisions ++ row'.decision).length ≤ 1
      rw [hnone, List.nil_append]
      unfold Request.decision
      split <;> simp
    · show ∀ grant ∈ history.grants, _
      rw [hgrants]
      exact nofun
    · rw [hkept.expected]
      exact h.prepared
  | claimed happroved _ =>
    have hnone : history.grants = [] := h.unclaimed (by rw [happroved]; rfl)
    obtain ⟨at', hdecisions⟩ := h.approved happroved
    refine ⟨nofun, nofun, h.one, nofun, ?_, fun grant hgrant => ?_, h.prepared, h.executing⟩
    · show (history.grants ++ [_]).length ≤ 1
      rw [hnone]
      exact Nat.le_refl 1
    · rw [hnone] at hgrant
      obtain rfl := List.mem_singleton.mp hgrant
      refine ⟨⟨true, row.terms, at'⟩, ?_, rfl, rfl⟩
      show _ ∈ history.decisions
      rw [hdecisions]
      exact List.mem_singleton.mpr rfl
  | prepared hrun hunexpected =>
    refine ⟨h.pending, h.approved, h.one, h.unclaimed, h.once, h.granted, ?_, h.executing⟩
    have hbefore := h.prepared
    rw [hunexpected] at hbefore
    show (history.prepared ++ [_]).length = 1
    rw [List.length_append, hbefore]
    rfl
  | dispatched hrun _ =>
    refine ⟨h.pending, h.approved, h.one, h.unclaimed, h.once, h.granted, h.prepared, fun status hstatus => ?_⟩
    obtain hbefore | hlast := List.mem_append.mp hstatus
    · exact h.executing status hbefore
    · rw [List.mem_singleton.mp hlast]
      exact hrun

/-! ### What a claim may rely on after the row -/

/-- Every claim that was allowed to execute got its locks before the request expires. -/
def OnTime (history : History) (row : Request) : Prop := ∀ grant ∈ history.grants, grant.at' < row.expiresAt

theorem OnTime.change {now : Nat} {releases : Bool} {history history' : History} {row row' : Request}
    (h : OnTime history row) (hchange : Change now false releases history row history' row') :
    OnTime history' row' := by
  cases hchange with
  | quiet hquiet =>
    intro grant hgrant
    rw [hquiet.expiresAt]
    exact h grant hgrant
  | released _ _ => exact h
  | decided _ hkept _ =>
    intro grant hgrant
    rw [hkept.expiresAt]
    exact h grant hgrant
  | claimed _ htime =>
    intro grant hgrant
    obtain hbefore | hlast := List.mem_append.mp hgrant
    · exact h grant hbefore
    · obtain rfl := List.mem_singleton.mp hlast
      exact htime rfl
  | prepared _ _ => exact h
  | dispatched _ _ => exact h

/-- The deferred dispatch of the request was claimed as often as the row says. -/
def ClaimedOnce (history : History) (row : Request) : Prop :=
  history.dispatches.length = if row.dispatchClaimedAt.isSome then 1 else 0

theorem ClaimedOnce.change {now : Nat} {late : Bool} {history history' : History} {row row' : Request}
    (h : ClaimedOnce history row) (hchange : Change now late false history row history' row') :
    ClaimedOnce history' row' := by
  cases hchange with
  | quiet hquiet =>
    unfold ClaimedOnce
    rw [hquiet.dispatched]
    exact h
  | released hreleases _ => cases hreleases
  | decided _ hkept _ =>
    unfold ClaimedOnce
    rw [hkept.dispatched]
    exact h
  | claimed _ _ => exact h
  | prepared _ _ => exact h
  | dispatched _ hnone =>
    unfold ClaimedOnce at h ⊢
    rw [hnone] at h
    show (history.dispatches ++ [_]).length = 1
    rw [List.length_append, h]
    rfl

/-- A closed request is not decided, claimed or dispatched any more. -/
theorem Change.of_closed {now : Nat} {late releases : Bool} {history history' : History} {row row' : Request}
    (hchange : Change now late releases history row history' row') (hclosed : row.status.closed = true) :
    row'.status = row.status ∧ history' = history := by
  cases hchange with
  | quiet hquiet => exact ⟨RequestStatus.closed_settles hclosed hquiet.status, rfl⟩
  | released _ hrun | prepared hrun _ | dispatched hrun _ =>
    rw [hrun] at hclosed
    cases hclosed
  | decided hpending _ _ =>
    rw [hpending] at hclosed
    cases hclosed
  | claimed happroved _ =>
    rw [happroved] at hclosed
    cases hclosed

namespace Operation

/-- What holds of the history and of the request, once there is one. -/
def Holds (P : History → Request → Prop) (op : Operation) : Prop :=
  match op.row with
  | none => op.history = ⟨[], [], [], []⟩
  | some row => P op.history row

/-- What holds of a new row and survives every change, survives a step. -/
theorem Holds.step {P : History → Request → Prop} {op op' : Operation} {event : OperationEvent} (h : op.Holds P)
    (created : ∀ (call : Call) (terms : Terms) (permission : Option RuntimePermission),
      P ⟨(call.request terms permission).decision, [], [], []⟩ (call.request terms permission))
    (change : ∀ history history' row row', P history row →
      Change op.now (op.late event) event.releases history row history' row' → P history' row')
    (hstep : op.apply event = some op') : op'.Holds P := by
  obtain ⟨hrow, hhistory⟩ | ⟨row, row', hrow, hrow', hchange⟩ | ⟨hnone, call, terms, permission,
      row', hrow', hchange⟩ :=
    step_cases hstep
  · unfold Holds
    rw [hrow, hhistory]
    exact h
  · unfold Holds at h ⊢
    rw [hrow] at h
    rw [hrow']
    exact change _ _ _ _ h hchange
  · unfold Holds at h ⊢
    rw [hnone] at h
    rw [hrow']
    replace h : op.history = ⟨[], [], [], []⟩ := h
    rw [h] at hchange
    exact change _ _ _ _ (created call terms permission) hchange

theorem holds_new {P : History → Request → Prop} : new.Holds P := rfl

end Operation

/-! ### Results -/

/-- One operation key: at most one claim executes, after the one decision there is, with the terms it was
taken on; at most one deferred dispatch is prepared, and it is claimed while the request executes. -/
structure Promises (history : History) : Prop where
  once : history.grants.length ≤ 1
  approved : ∀ grant ∈ history.grants, ∃ decision ∈ history.decisions, decision.approved = true ∧
    decision.terms = grant.terms
  final : history.decisions.length ≤ 1
  prepared : history.prepared.length ≤ 1
  executing : ∀ status ∈ history.dispatches, status = .executing

theorem Recorded.promises {history : History} {row : Request} (h : Recorded history row) : Promises history := by
  refine ⟨h.once, h.granted, h.one, ?_, h.executing⟩
  rw [h.prepared]
  split <;> decide

/-- The promises hold in every state that callers, approvers and workers reach. -/
theorem Authorizations.promises {op : Operation} {events : List OperationEvent} (hrun : Authorizations .new events op) :
    Promises op.history := by
  have hholds : op.Holds Recorded := by
    refine hrun.invariant (fun before event after h hstep => ?_) Operation.holds_new
    exact h.step Recorded.created (fun _ _ _ _ h hchange => h.change hchange) hstep
  unfold Operation.Holds at hholds
  split at hholds
  case h_1 =>
    rw [hholds]
    exact ⟨Nat.zero_le 1, nofun, Nat.zero_le 1, Nat.zero_le 1, nofun⟩
  case h_2 => exact hholds.promises

/-- A closed request stays closed, and nothing is decided, claimed or dispatched on it. -/
theorem Authorizations.closed {op op' : Operation} {events : List OperationEvent} (hrun : Authorizations op events op')
    {row : Request} (hrow : op.row = some row) (hclosed : row.status.closed = true) :
    ∃ row', op'.row = some row' ∧ row'.status = row.status ∧ op'.history = op.history := by
  refine hrun.invariant (P := fun later => ∃ row', later.row = some row' ∧ row'.status = row.status ∧
    later.history = op.history) (fun before event after h hstep => ?_) ⟨row, hrow, rfl, rfl⟩
  obtain ⟨row', hrow', hstatus, hhistory⟩ := h
  obtain ⟨hsame, hkept⟩ | ⟨found, found', hfound, hfound', hchange⟩ | ⟨hnone, -⟩ := Operation.step_cases hstep
  · exact ⟨row', hsame.trans hrow', hstatus, hkept.trans hhistory⟩
  · rw [hrow'] at hfound
    cases hfound
    obtain ⟨hstatus', hhistory'⟩ := hchange.of_closed (by rw [hstatus]; exact hclosed)
    exact ⟨found', hfound', hstatus'.trans hstatus, hhistory'.trans hhistory⟩
  · rw [hrow'] at hnone
    cases hnone

/-- The claims allowed to execute by `op` got their locks before the request expires. -/
def Operation.OnTime (op : Operation) : Prop :=
  ∀ grant ∈ op.history.grants, ∃ row, op.row = some row ∧ grant.at' < row.expiresAt

/-- Unless `release_buffered_dispatch` is called, the deferred dispatch is claimed once. -/
theorem Authorizations.dispatched_once {op : Operation} {events : List OperationEvent}
    (hrun : Authorizations .new events op) (hreleases : ∀ event ∈ events, event.releases = false) :
    op.history.dispatches.length ≤ 1 := by
  have hguarded : ∀ {before after : Operation} {events : List OperationEvent}, Authorizations before events after →
      (∀ event ∈ events, event.releases = false) → before.Holds ClaimedOnce → after.Holds ClaimedOnce := by
    intro before after events hrun
    induction hrun with
    | nil => exact fun _ h => h
    | @cons s t u event rest hstep _ ih =>
      intro hreleases h
      refine ih (fun later hlater => hreleases later (List.mem_cons_of_mem _ hlater)) ?_
      refine h.step (fun _ _ _ => rfl) (fun _ _ _ _ h hchange => ?_) hstep
      rw [hreleases event List.mem_cons_self] at hchange
      exact h.change hchange
  have hholds := hguarded hrun hreleases Operation.holds_new
  unfold Operation.Holds at hholds
  split at hholds
  case h_1 =>
    rw [hholds]
    exact Nat.zero_le 1
  case h_2 =>
    rw [hholds]
    split <;> decide

/-- The promises hold in every run, a closed request is never executable again, and an operation whose
claims are not late executes before the request expires; a late claim of an approved request with the
terms recorded executes at or after its expiry. -/
theorem one_dispatch_while_not_late (events : List OperationEvent) (op : Operation) :
    (Steps (Guarded (Executes Operation.apply) fun op event => op.late event = false) .new events op →
      Promises op.history ∧ op.OnTime ∧
        ((∀ event ∈ events, event.releases = false) → op.history.dispatches.length ≤ 1) ∧
        ∀ row, op.row = some row → row.status.closed = true → ∀ events' op', Authorizations op events' op' →
          ∃ row', op'.row = some row' ∧ row'.status = row.status ∧ op'.history = op.history) ∧
    ∀ (op' : Operation) (i : Nat) (view : ClaimView), op.late (.claim i view) = true →
      op.apply (.claim i view) = some op' →
      op'.history.grants = op.history.grants ∨
        ∃ row grant, op'.row = some row ∧ grant ∈ op'.history.grants ∧ row.expiresAt ≤ grant.at' := by
  refine ⟨fun hrun => ⟨Authorizations.promises hrun.unguard, ?_, Authorizations.dispatched_once hrun.unguard,
    fun row hrow hclosed events' op' hlater => Authorizations.closed hlater hrow hclosed⟩,
    fun op' i view hlate hstep => ?_⟩
  · have hholds : op.Holds OnTime := by
      refine hrun.invariant (fun before event after h hstep => ?_) Operation.holds_new
      refine h.step (fun _ _ _ => nofun) (fun _ _ _ _ h hchange => ?_) hstep.2
      rw [hstep.1] at hchange
      exact h.change hchange
    unfold Operation.Holds at hholds
    split at hholds
    case h_1 =>
      intro grant hgrant
      rw [hholds] at hgrant
      cases hgrant
    case h_2 row hrow => exact fun grant hgrant => ⟨row, hrow, hholds grant hgrant⟩
  · obtain ⟨call, hcall, rfl⟩ := Option.map_eq_some_iff.mp hstep
    obtain hsame | ⟨terms, row, hrow, heq⟩ := Operation.claimed_cases {op with calls := op.calls.eraseIdx i} call view
    · exact .inl (by rw [hsame])
    · rw [heq]
      obtain ⟨hclaimed, happroved, -, -, hafter⟩ | ⟨hnot, -⟩ := Request.claim_cases row call terms view
      · refine .inr ⟨_, ⟨terms, op.now⟩, rfl, ?_, ?_⟩
        · simp only [if_pos hclaimed]
          exact List.mem_append_right _ List.mem_cons_self
        · rw [hafter]
          show row.expiresAt ≤ op.now
          simp only [Operation.late, hcall, Option.any_some] at hlate
          obtain hrow | ⟨hnone, rfl⟩ := hrow
          · replace hrow : op.row = some row := hrow
            simp only [hrow, Bool.and_eq_true, decide_eq_true_eq] at hlate
            exact hlate.2
          · replace hnone : op.row = none := hnone
            simp only [hnone, Bool.and_eq_true, decide_eq_true_eq] at hlate
            exact hlate.2
      · exact .inl (by simp only [if_neg hnot])

/-- A tool call of an agent whose manager is user 1. -/
def sampleAction : Action := ⟨.mcp, true, true, "arguments", "configuration", none, none⟩

def sampleView : ClaimView := ⟨1, true, some (.ask, "tool"), none, false, false, true⟩

def sampleAnswer : Answer := ⟨1, true, false, true, 1, none, true, true, 0⟩

/-- Asked, approved after an hour, claimed once; the dispatch of its worker follows. -/
def approvedRun : List OperationEvent :=
  [.present sampleAction, .claim 0 sampleView, .wait 3600, .answer sampleAnswer,
    .present sampleAction, .claim 0 sampleView,
    .registerDispatch "payload", .claimDispatch ⟨"payload", 1, true, some (.ask, "tool", "configuration"), true⟩ false,
    .finish .completed true true]

/-- Asked, approved, and presented again one second before the expiry; the locks come two seconds later. -/
def lateRun : List OperationEvent :=
  [.present sampleAction, .claim 0 sampleView, .answer sampleAnswer, .wait (day - 1), .present sampleAction, .wait 2,
    .claim 0 sampleView]

/-- The approved call executes once, on time. -/
theorem approved_call_executes_once : ∃ op : Operation, Promises op.history ∧ op.OnTime ∧ op.history.grants.length = 1 ∧
    op.history.dispatches.length ≤ 1 := by
  have hruns : (approvedRun.foldlM
      (fun (op : Operation) event => if op.late event then none else op.apply event) .new).any
      (fun op => op.history.grants.length == 1) = true := by decide +kernel
  obtain ⟨op, hop, hgrant⟩ := (Option.any_eq_true _ _).mp hruns
  obtain ⟨hpromises, htime, hdispatched, -⟩ := (one_dispatch_while_not_late approvedRun op).1 (.avoiding_of_foldlM hop)
  exact ⟨op, hpromises, htime, by simpa using hgrant, hdispatched (by decide)⟩

/-- The claim that waited for its locks executes after the request has expired. -/
theorem claim_executes_after_expiry : ∃ op, Authorizations .new lateRun op ∧ ∃ row grant, op.row = some row ∧
    row.status = .executing ∧ grant ∈ op.history.grants ∧ row.expiresAt < grant.at' := by
  have hruns : (lateRun.foldlM Operation.apply Operation.new).any (fun op => op.row.any fun row =>
      row.status == .executing && op.history.grants.any (row.expiresAt < ·.at')) = true := by decide +kernel
  obtain ⟨op, hop, hrow⟩ := (Option.any_eq_true _ _).mp hruns
  obtain ⟨row, hfound, hlate⟩ := (Option.any_eq_true _ _).mp hrow
  rw [Bool.and_eq_true, List.any_eq_true] at hlate
  obtain ⟨hstatus, grant, hgrant, hafter⟩ := hlate
  exact ⟨op, .of_foldlM hop, row, grant, hfound, by simpa using hstatus, hgrant, by simpa using hafter⟩

end Galaris.Tools
