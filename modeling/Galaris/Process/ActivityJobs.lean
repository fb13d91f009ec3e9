import Galaris.Base.Transition
import Mathlib.Logic.Function.Basic

/-! External activities of a native run (`activity_jobs.py`).

One attempt of a typed `rest` or `tool_call` activity, the engine passes that arm it
and consume its response (`_execute_effect`), and any number of invocations of
`execute_external_activity`, each known by its `worker_token`. An event is one
transaction under the run lock, or the end of the remote call that one of them
started. A worker may stop for good between any two of its transactions. -/
namespace Galaris.Process.Jobs

open Transition (Steps Guarded Executes)

abbrev Time := Nat
abbrev Token := Nat
abbrev RequestId := Nat

/-- Seconds of a worker's claim. -/
def claimSeconds : Nat := 360

inductive Kind
  | rest | toolCall
  deriving DecidableEq

/-- `ProcessNodeAttempt.status`; `ready` is `rest_ready` or `tool_ready`. -/
inductive AttemptStatus
  | intent | ready | claiming | started | returned | authorization | completed | failed | cancelled
  deriving DecidableEq

/-- The keys of `ProcessNodeAttempt.receipt`: the request or the arguments, the claim of
a worker, the pending authorization, the output. -/
structure Receipt (A O R : Type) where
  arguments : Option A := none
  workerToken : Option Token := none
  leaseUntil : Option Time := none
  authorization : Option RequestId := none
  output : Option O := none
  result : Option R := none
  deriving DecidableEq

structure Attempt (A O R : Type) where
  status : AttemptStatus := .intent
  receipt : Receipt A O R := {}
  error : Option String := none
  deriving DecidableEq

/-- How a remote call ends: with an output, suspended on an authorization, refused by the
Tool, by a `PermissionError` or by any other exception. -/
inductive CallResult (O : Type)
  | completed (output : O)
  | waiting (request : RequestId)
  | rejected (error : String)
  | permission (error : String)
  | unknown
  deriving DecidableEq

/-- A remote call that was started: by which worker, with what, and how it ended. -/
structure Call (A O : Type) where
  worker : Token
  arguments : Option A
  continuation : Option RequestId
  result : Option (CallResult O) := none
  deriving DecidableEq

/-- Where an invocation of `execute_external_activity` stands: not begun, its claim
committed, its Tool context admitted, sent back with the status it saw, the call running,
the call ended, finished. -/
inductive Worker (A O R : Type)
  | idle
  | claimed (prepared : Receipt A O R) (calls : Nat)
  | admitted (prepared : Receipt A O R)
  | refused (seen : AttemptStatus)
  | calling (prepared : Receipt A O R)
  | called (prepared : Receipt A O R) (result : CallResult O)
  | finished
  deriving DecidableEq

/-- The Task of a Tool context, as `workflow_operation` reads it. -/
structure OperationTask where
  heldByUser : Bool := false
  dispatch : Bool := true
  leaseUntil : Option Time := none
  capacity : Bool := true
  deriving DecidableEq

/-- `claim_inline_execution` lets the worker in. -/
def OperationTask.admits (task : OperationTask) (now : Time) : Bool :=
  !task.heldByUser && task.dispatch && task.leaseUntil.all (decide <| · ≤ now) && task.capacity

/-- The activity: its kind, the arguments its configuration resolves to, and the mapping
of a response to declared outputs, `none` where it raises. -/
structure Activity (A O R : Type) where
  kind : Kind
  arguments : A
  externalOutputs : O → Option R

structure State (A O R : Type) where
  now : Time := 0
  stopped : Bool := false
  cancelRequested : Bool := false
  task : OperationTask := {}
  resolved : RequestId → Bool := fun _ => false
  attempt : Attempt A O R := {}
  workers : Token → Worker A O R := fun _ => .idle
  /-- The remote calls in the order they were started. -/
  calls : List (Call A O) := []

inductive Event (O : Type)
  | tick (seconds : Nat)
  | run (stopped cancelRequested : Bool)
  | task (task : OperationTask)
  | resolve (request : RequestId)
  | enginePass
  | claim (worker : Token)
  | admission (worker : Token)
  | dispatch (worker : Token)
  | answer (worker : Token) (result : CallResult O)
  | raise (worker : Token) (error : String)
  | record (worker : Token)
  | crash (worker : Token)
  deriving DecidableEq

section Jobs
variable {A O R : Type} (N : Activity A O R)

/-! ### The engine -/

/-- The attempt is armed for a worker. A request replaces the receipt, the arguments of a
Tool are added to it. -/
def arm (attempt : Attempt A O R) : Attempt A O R :=
  match N.kind with
  | .rest => {attempt with status := .ready, receipt := {arguments := some N.arguments}}
  | .toolCall => {attempt with status := .ready, receipt := {attempt.receipt with arguments := some N.arguments}}

/-- `_execute_effect` on an external activity, inside one pass that holds the run lock. -/
def executeEffect (s : State A O R) : Attempt A O R :=
  if s.stopped || s.cancelRequested then s.attempt
  else match s.attempt.status with
    | .completed | .failed | .started | .ready => s.attempt
    | .returned =>
      match s.attempt.receipt.output.bind N.externalOutputs with
      | some result => {s.attempt with status := .completed, receipt := {result := some result}}
      | none => s.attempt
    | .claiming =>
      if s.attempt.receipt.leaseUntil.any (decide <| s.now < ·) then s.attempt else arm N s.attempt
    | .authorization =>
      if N.kind == .toolCall &&
          (s.attempt.receipt.authorization.any (!s.resolved ·) || s.task.heldByUser) then s.attempt
      else arm N s.attempt
    | .intent | .cancelled => arm N s.attempt

/-! ### The workers -/

def State.setWorker (s : State A O R) (w : Token) (worker : Worker A O R) : State A O R :=
  {s with workers := Function.update s.workers w worker}

def State.setAttempt (s : State A O R) (attempt : Attempt A O R) : State A O R := {s with attempt := attempt}

/-- The first transaction of `execute_external_activity`: it claims a ready attempt. -/
def claim (s : State A O R) (w : Token) : State A O R :=
  if s.attempt.status != .ready then s.setWorker w .finished
  else if s.stopped || s.cancelRequested then
    (s.setAttempt {s.attempt with status := .cancelled}).setWorker w .finished
  else
    (s.setAttempt {s.attempt with
      status := .claiming
      receipt := {s.attempt.receipt with workerToken := some w, leaseUntil := some (s.now + claimSeconds)}}).setWorker w
      (.claimed s.attempt.receipt s.calls.length)

/-- `workflow_operation`. A worker that is not admitted gives its claim back. -/
def admission (s : State A O R) (w : Token) (prepared : Receipt A O R) : State A O R :=
  if s.task.admits s.now then
    ({s with task := {s.task with dispatch := false, leaseUntil := some (s.now + claimSeconds)}} :
      State A O R).setWorker w (.admitted prepared)
  else
    (s.setAttempt {s.attempt with
      status := if prepared.authorization.isSome then .authorization else .ready
      receipt := prepared}).setWorker w .finished

/-- A worker that `mark_dispatched` sends back: a Tool still closes its Task. -/
def refused (N : Activity A O R) (seen : AttemptStatus) : Worker A O R :=
  match N.kind with
  | .rest => .finished
  | .toolCall => .refused seen

/-- `mark_dispatched`, and the start of the remote call when it lets the worker through. -/
def markDispatched (s : State A O R) (w : Token) (prepared : Receipt A O R) : State A O R :=
  if s.attempt.status != .claiming || s.attempt.receipt.workerToken != some w then
    s.setWorker w (refused N s.attempt.status)
  else if s.stopped || s.cancelRequested then
    (s.setAttempt {s.attempt with status := .cancelled}).setWorker w (refused N .cancelled)
  else
    ({s with
      attempt := {s.attempt with status := .started}
      calls := s.calls ++ [⟨w, prepared.arguments, prepared.authorization, none⟩]} :
      State A O R).setWorker w (.calling prepared)

/-- The response reaches the worker. -/
def answerCalls (calls : List (Call A O)) (w : Token) (result : CallResult O) : List (Call A O) :=
  calls.map fun call => if call.worker = w then {call with result := some result} else call

/-- The status stands: a started call remains an uncertainty blocker. -/
def uncertain (attempt : Attempt A O R) (now : Time) (error : String) : Attempt A O R :=
  {attempt with
    receipt := {attempt.receipt with leaseUntil := some now}
    error := some error}

/-- What the last transaction of a worker leaves of an attempt that still carries its token. -/
def recorded (attempt : Attempt A O R) (prepared : Receipt A O R) (now : Time) : CallResult O → Attempt A O R
  | .completed output => {attempt with status := .returned, receipt := {output := some output}}
  | .waiting request =>
    {attempt with status := .authorization, receipt := {arguments := prepared.arguments, authorization := some request}}
  | .rejected error => {attempt with status := .failed, receipt := {}, error := some error}
  | .permission error =>
    match N.kind with
    | .rest => {attempt with status := .failed, error := some error}
    | .toolCall => uncertain attempt now "Tool outcome is unknown; reconcile before retrying"
  | .unknown =>
    uncertain attempt now "External effect outcome is unknown; reconcile the remote operation before retrying"

/-- The last transaction of `execute_external_activity`, after the call ended. -/
def record (s : State A O R) (w : Token) (prepared : Receipt A O R) (result : CallResult O) : State A O R :=
  if s.attempt.receipt.workerToken != some w || s.stopped then s.setWorker w .finished
  else (s.setAttempt (recorded N s.attempt prepared s.now result)).setWorker w .finished

/-- The last transaction of a worker that raised without a call of its own; the failure is
safe where it last saw the attempt claimed. -/
def raised (s : State A O R) (w : Token) (seen : AttemptStatus) (error : String) : State A O R :=
  if s.attempt.receipt.workerToken != some w || s.stopped then s.setWorker w .finished
  else if seen == .claiming then
    (s.setAttempt {s.attempt with status := .failed, error := some error}).setWorker w .finished
  else
    (s.setAttempt (uncertain s.attempt s.now error)).setWorker w .finished

/-- The results that a call of this kind can have. -/
def Kind.allows : Kind → CallResult O → Bool
  | .rest, .waiting _ => false
  | .rest, .rejected _ => false
  | _, _ => true

def apply (s : State A O R) : Event O → Option (State A O R)
  | .tick seconds => some {s with now := s.now + seconds}
  | .run stopped cancelRequested => some {s with stopped := stopped, cancelRequested := cancelRequested}
  | .task task => some {s with task := task}
  | .resolve request => some {s with resolved := Function.update s.resolved request true}
  | .enginePass => some (s.setAttempt (executeEffect N s))
  | .claim w =>
    match s.workers w with
    | .idle => some (claim s w)
    | _ => none
  | .admission w =>
    match N.kind, s.workers w with
    | .toolCall, .claimed prepared _ => some (admission s w prepared)
    | _, _ => none
  | .dispatch w =>
    match N.kind, s.workers w with
    | .rest, .claimed prepared _ => some (markDispatched N s w prepared)
    | .toolCall, .admitted prepared => some (markDispatched N s w prepared)
    | _, _ => none
  | .answer w result =>
    match s.workers w with
    | .calling prepared =>
      if N.kind.allows result then
        some (({s with calls := answerCalls s.calls w result} : State A O R).setWorker w (.called prepared result))
      else none
    | _ => none
  | .raise w error =>
    match s.workers w with
    | .claimed _ _ => some (raised s w .claiming error)
    | .admitted _ => some (raised s w .claiming error)
    | .refused seen => some (raised s w seen error)
    | _ => none
  | .record w =>
    match s.workers w with
    | .called prepared result => some (record N s w prepared result)
    | _ => none
  | .crash w =>
    match s.workers w with
    | .idle => none
    | _ => some (s.setWorker w .finished)

end Jobs

/-! ### What holds in every state -/

section Safety
variable {A O R : Type} {N : Activity A O R}

/-- The call returned `waiting` and its authorization was resolved. -/
def Settled (s : State A O R) (call : Call A O) : Prop :=
  ∃ q, call.result = some (.waiting q) ∧ s.resolved q = true

/-- No worker but `w` started a call, and `w` did not. -/
def Silent (s : State A O R) (w : Token) : Prop := ∀ call ∈ s.calls, call.worker ≠ w

/-- The last call is the one of `w`, with the result `result`. -/
def LastCall (s : State A O R) (w : Token) (result : Option (CallResult O)) : Prop :=
  ∃ init call, s.calls = init ++ [call] ∧ call.worker = w ∧ call.result = result ∧ ∀ d ∈ init, d.worker ≠ w

/-- What a worker at some point of its work knows of the state. -/
def WorkerInv (s : State A O R) (w : Token) : Worker A O R → Prop
  | .idle | .admitted _ | .refused _ => Silent s w
  | .claimed _ seen => Silent s w ∧ seen ≤ s.calls.length ∧
      (seen = s.calls.length → s.attempt.status ≠ .started ∧ ∀ call ∈ s.calls, Settled s call)
  | .calling _ => s.attempt.status = .started ∧ LastCall s w none
  | .called _ result => s.attempt.status = .started ∧ LastCall s w (some result)
  | .finished => True

/-- The invariant of a run in which no worker gives back a claim it no longer has. -/
structure Inv (N : Activity A O R) (s : State A O R) : Prop where
  once : ∀ init call, s.calls = init ++ [call] → ∀ d ∈ init, Settled s d
  armed : s.attempt.status ∈ [.intent, .ready, .claiming, .cancelled] → ∀ d ∈ s.calls, Settled s d
  parked : s.attempt.status = .authorization → ∀ d ∈ s.calls, ∃ q, d.result = some (.waiting q) ∧
    (s.resolved q = true ∨ s.attempt.receipt.authorization = some q)
  started : s.attempt.status = .started → ∃ init call, s.calls = init ++ [call] ∧
    s.attempt.receipt.workerToken = some call.worker
  returned : s.attempt.status = .returned → ∃ init call output, s.calls = init ++ [call] ∧
    call.result = some (.completed output) ∧ s.attempt.receipt.output = some output ∧
    s.attempt.receipt.workerToken = none
  allowed : ∀ d ∈ s.calls, ∀ result, d.result = some result → N.kind.allows result = true
  workers : ∀ w, WorkerInv s w (s.workers w)

theorem Inv.initial : Inv N ({} : State A O R) where
  once init call h := by simp at h
  armed _ d hd := by cases hd
  parked h := by cases h
  started h := by cases h
  returned h := by cases h
  allowed d hd := by cases hd
  workers w := fun call hcall => by cases hcall

/-- The invariant reads only the attempt, the calls, the workers and the resolved requests. -/
theorem Inv.congr {s t : State A O R} (h : Inv N s) (ha : t.attempt = s.attempt) (hc : t.calls = s.calls)
    (hw : t.workers = s.workers) (hr : ∀ q, s.resolved q = true → t.resolved q = true) : Inv N t := by
  have hsettled : ∀ d, Settled s d → Settled t d := fun d ⟨q, hq, hres⟩ => ⟨q, hq, hr q hres⟩
  refine ⟨?_, ?_, ?_, ?_, ?_, ?_, fun w => ?_⟩
  · rw [hc]
    exact fun init call hcalls d hd => hsettled d (h.once init call hcalls d hd)
  · rw [ha, hc]
    exact fun hs d hd => hsettled d (h.armed hs d hd)
  · rw [ha, hc]
    intro hs d hd
    obtain ⟨q, hq, hres⟩ := h.parked hs d hd
    exact ⟨q, hq, hres.imp_left (hr q)⟩
  · rw [ha, hc]; exact h.started
  · rw [ha, hc]; exact h.returned
  · rw [hc]; exact h.allowed
  · have hworker := h.workers w
    rw [hw]
    revert hworker
    cases s.workers w <;> simp only [WorkerInv, Silent, LastCall, ha, hc, imp_self]
    rintro ⟨hsilent, hle, hseen⟩
    exact ⟨hsilent, hle, fun heq => ⟨(hseen heq).1, fun d hd => hsettled d ((hseen heq).2 d hd)⟩⟩

/-- A worker moves to a point whose knowledge the state bears out. -/
theorem Inv.setWorker {s : State A O R} {w : Token} (h : Inv N s) (worker : Worker A O R)
    (hw : WorkerInv s w worker) : Inv N (s.setWorker w worker) where
  once := h.once
  armed := h.armed
  parked := h.parked
  started := h.started
  returned := h.returned
  allowed := h.allowed
  workers w' := by
    show WorkerInv s w' (Function.update s.workers w worker w')
    by_cases heq : w' = w
    · subst heq
      rw [Function.update_self]
      exact hw
    · rw [Function.update_of_ne heq]
      exact h.workers w'

/-- The statuses from which the engine may arm the attempt again. -/
def armable : List AttemptStatus := [.intent, .ready, .claiming, .cancelled, .authorization]

/-- The attempt is rewritten while no call is open. -/
theorem Inv.setAttempt {s : State A O R} {attempt : Attempt A O R} (h : Inv N s)
    (hs : s.attempt.status ≠ .started) (status : AttemptStatus) (hstatus : attempt.status = status)
    (hclosed : status ≠ .started ∧ status ≠ .returned)
    (harmed : status ∈ armable → ∀ d ∈ s.calls, Settled s d) : Inv N (s.setAttempt attempt) where
  once := h.once
  armed hnew := by
    have hnew' : status ∈ [AttemptStatus.intent, .ready, .claiming, .cancelled] := hstatus ▸ hnew
    exact harmed (List.mem_append_left [AttemptStatus.authorization] hnew')
  parked hnew d hd := by
    obtain rfl : status = .authorization := hstatus.symm.trans hnew
    obtain ⟨q, hq, hres⟩ := harmed (by decide) d hd
    exact ⟨q, hq, .inl hres⟩
  started hnew := absurd (hstatus.symm.trans hnew) hclosed.1
  returned hnew := absurd (hstatus.symm.trans hnew) hclosed.2
  allowed := h.allowed
  workers w := by
    have hworker := h.workers w
    show WorkerInv (s.setAttempt attempt) w (s.workers w)
    cases hw : s.workers w with
    | claimed prepared seen =>
      rw [hw] at hworker
      exact ⟨hworker.1, hworker.2.1, fun heq => ⟨fun hnew => hclosed.1 (hstatus.symm.trans hnew),
        (hworker.2.2 heq).2⟩⟩
    | calling prepared =>
      rw [hw] at hworker
      exact absurd hworker.1 hs
    | called prepared result =>
      rw [hw] at hworker
      exact absurd hworker.1 hs
    | finished => trivial
    | idle => rw [hw] at hworker; exact hworker
    | admitted prepared => rw [hw] at hworker; exact hworker
    | refused seen => rw [hw] at hworker; exact hworker

/-- Nothing that a worker or the engine writes into the receipt of an open call, short of
its token, breaks the invariant. -/
theorem Inv.uncertain {s : State A O R} {now : Time} {error : String} (h : Inv N s) :
    Inv N (s.setAttempt (uncertain s.attempt now error)) where
  once := h.once
  armed := h.armed
  parked := h.parked
  started := h.started
  returned := h.returned
  allowed := h.allowed
  workers w := by
    have hworker := h.workers w
    show WorkerInv (s.setAttempt _) w (s.workers w)
    cases hw : s.workers w <;> rw [hw] at hworker <;> exact hworker

theorem executeEffect_inv {s : State A O R} (h : Inv N s) : Inv N (s.setAttempt (executeEffect N s)) := by
  have hsame : Inv N (s.setAttempt s.attempt) := h
  have harm (hs : s.attempt.status ≠ .started) (hsettled : ∀ d ∈ s.calls, Settled s d) :
      Inv N (s.setAttempt (arm N s.attempt)) := by
    have hready : (arm N s.attempt).status = .ready := by
      unfold arm
      cases N.kind <;> rfl
    exact h.setAttempt hs .ready hready (by decide) fun _ => hsettled
  unfold executeEffect
  split
  · exact hsame
  cases hstatus : s.attempt.status with
  | completed | failed | started | ready => exact hsame
  | returned =>
    dsimp only
    cases s.attempt.receipt.output.bind N.externalOutputs with
    | none => exact hsame
    | some result =>
      exact h.setAttempt (by rw [hstatus]; decide) .completed rfl (by decide) fun hs => absurd hs (by decide)
  | claiming =>
    dsimp only
    split
    · exact hsame
    · exact harm (by rw [hstatus]; decide) (h.armed (by simp [hstatus]))
  | authorization =>
    dsimp only
    split
    · exact hsame
    · next hpending =>
      refine harm (by rw [hstatus]; decide) fun d hd => ?_
      obtain ⟨q, hq, hres⟩ := h.parked hstatus d hd
      refine ⟨q, hq, ?_⟩
      rcases hres with hres | hreceipt
      · exact hres
      · -- only a Tool call can have been suspended
        have hkind : N.kind = .toolCall := by
          have hallowed := h.allowed d hd _ hq
          revert hallowed
          cases N.kind
          · intro hallowed; cases hallowed
          · exact fun _ => rfl
        simp only [hkind, hreceipt, Option.any_some, beq_self_eq_true, Bool.true_and, Bool.or_eq_true,
          Bool.not_eq_true', not_or, Bool.not_eq_false] at hpending
        exact hpending.1
  | intent => exact harm (by rw [hstatus]; decide) (h.armed (by simp [hstatus]))
  | cancelled => exact harm (by rw [hstatus]; decide) (h.armed (by simp [hstatus]))

theorem claim_inv {s : State A O R} {w : Token} (h : Inv N s) (hw : s.workers w = .idle) :
    Inv N (claim s w) := by
  have hsilent : Silent s w := by
    have hworker := h.workers w
    rw [hw] at hworker
    exact hworker
  unfold claim
  split
  · exact h.setWorker .finished trivial
  · next hready =>
    have hstatus : s.attempt.status = .ready := by simpa using hready
    have hsettled := h.armed (by simp [hstatus])
    split
    · exact (h.setAttempt (by rw [hstatus]; decide) .cancelled rfl (by decide) fun _ =>
        hsettled).setWorker .finished trivial
    · refine (h.setAttempt (by rw [hstatus]; decide) .claiming rfl (by decide) fun _ => hsettled).setWorker _ ?_
      exact ⟨hsilent, Nat.le_refl _, fun _ => ⟨AttemptStatus.noConfusion, hsettled⟩⟩

theorem admission_inv {s : State A O R} {w : Token} {prepared : Receipt A O R} {seen : Nat} (h : Inv N s)
    (hw : s.workers w = .claimed prepared seen)
    (hclaim : s.task.admits s.now = true ∨ seen = s.calls.length) : Inv N (admission s w prepared) := by
  have hworker := h.workers w
  rw [hw] at hworker
  unfold admission
  split
  · have htask : Inv N {s with task := {s.task with dispatch := false, leaseUntil := some (s.now + claimSeconds)}} :=
      h.congr rfl rfl rfl fun _ hq => hq
    exact htask.setWorker _ hworker.1
  · next hnot =>
    obtain ⟨hstarted, hsettled⟩ := hworker.2.2 (hclaim.resolve_left hnot)
    refine (h.setAttempt hstarted _ rfl ?_ fun _ => hsettled).setWorker .finished trivial
    dsimp only
    split <;> exact ⟨AttemptStatus.noConfusion, AttemptStatus.noConfusion⟩

/-- The call of a worker whose claim holds is started. -/
theorem Inv.start {s : State A O R} {w : Token} (h : Inv N s) (call : Call A O) (hover : s.workers w = .finished)
    (hstatus : s.attempt.status = .claiming) (htoken : s.attempt.receipt.workerToken = some w)
    (hcall : call.worker = w) (hopen : call.result = none) :
    Inv N {s with attempt := {s.attempt with status := .started}, calls := s.calls ++ [call]} where
  once init last hcalls d hd := by
    obtain ⟨rfl, -⟩ := List.append_inj' hcalls rfl
    exact h.armed (by simp [hstatus]) d hd
  armed hs := by simp at hs
  parked := nofun
  started _ := ⟨s.calls, call, rfl, by rw [hcall]; exact htoken⟩
  returned := nofun
  allowed d hd result hresult := by
    rcases List.mem_append.mp hd with hd | hd
    · exact h.allowed d hd result hresult
    · rw [List.mem_singleton.mp hd, hopen] at hresult
      cases hresult
  workers w' := by
    have hworker := h.workers w'
    have hsilent (hs : Silent s w') (hne : w' ≠ w) : ∀ d ∈ s.calls ++ [call], d.worker ≠ w' := by
      intro d hd
      rcases List.mem_append.mp hd with hd | hd
      · exact hs d hd
      · rw [List.mem_singleton.mp hd, hcall]
        exact hne.symm
    have hne (hw : s.workers w' ≠ .finished) : w' ≠ w := fun heq => hw (heq ▸ hover)
    show WorkerInv _ w' (s.workers w')
    cases hw : s.workers w' with
    | claimed prepared seen =>
      rw [hw] at hworker
      have hle := hworker.2.1
      refine ⟨hsilent hworker.1 (hne (by simp [hw])), ?_, fun heq => ?_⟩
      · simp only [List.length_append, List.length_singleton]
        omega
      · simp only [List.length_append, List.length_singleton] at heq
        omega
    | calling prepared =>
      rw [hw] at hworker
      exact absurd (hstatus.symm.trans hworker.1) (by decide)
    | called prepared result =>
      rw [hw] at hworker
      exact absurd (hstatus.symm.trans hworker.1) (by decide)
    | finished => trivial
    | idle => rw [hw] at hworker; exact hsilent hworker (hne (by simp [hw]))
    | admitted prepared => rw [hw] at hworker; exact hsilent hworker (hne (by simp [hw]))
    | refused seen => rw [hw] at hworker; exact hsilent hworker (hne (by simp [hw]))

theorem markDispatched_inv {s : State A O R} {w : Token} {prepared : Receipt A O R} (h : Inv N s)
    (hsilent : Silent s w) : Inv N (markDispatched N s w prepared) := by
  have hrefused (t : State A O R) (ht : t.calls = s.calls) (seen : AttemptStatus) :
      WorkerInv t w (refused N seen) := by
    unfold refused
    cases N.kind
    · trivial
    · show Silent t w
      rw [Silent, ht]
      exact hsilent
  unfold markDispatched
  split
  · exact h.setWorker _ (hrefused s rfl _)
  · next hclaim =>
    have hstatus : s.attempt.status = .claiming := by simp_all
    have htoken : s.attempt.receipt.workerToken = some w := by simp_all
    split
    · refine (h.setAttempt (by rw [hstatus]; decide) .cancelled rfl (by decide) fun _ =>
        h.armed (by simp [hstatus])).setWorker _ ?_
      exact hrefused (s.setAttempt {s.attempt with status := .cancelled}) rfl .cancelled
    · have hover : Inv N (s.setWorker w .finished) := h.setWorker .finished trivial
      have hstart := hover.start ⟨w, prepared.arguments, prepared.authorization, none⟩
        (Function.update_self ..) hstatus htoken rfl rfl
      have hcalling := hstart.setWorker (w := w) (.calling prepared) ⟨rfl, s.calls, _, rfl, rfl, rfl, hsilent⟩
      simpa [State.setWorker] using hcalling

theorem raised_inv {s : State A O R} {w : Token} {seen : AttemptStatus} {error : String} (h : Inv N s)
    (hsilent : Silent s w) : Inv N (raised s w seen error) := by
  unfold raised
  split
  · exact h.setWorker .finished trivial
  split
  · next hkept _ =>
    -- a started attempt carries the token of its call, which is not the token of `w`
    have hclosed : s.attempt.status ≠ .started := by
      intro hstarted
      obtain ⟨init, call, hcalls, htoken⟩ := h.started hstarted
      have hmine : s.attempt.receipt.workerToken = some w := by simp_all
      exact hsilent call (by simp [hcalls]) (Option.some.inj (htoken.symm.trans hmine))
    exact (h.setAttempt hclosed .failed rfl (by decide) fun hs => absurd hs (by decide)).setWorker .finished trivial
  · exact h.uncertain.setWorker .finished trivial

/-- What a call of `w` alone ends with leaves every other call as it was. -/
theorem answerCalls_last {init : List (Call A O)} {call : Call A O} {w : Token} {result : CallResult O}
    (hcall : call.worker = w) (hinit : ∀ d ∈ init, d.worker ≠ w) :
    answerCalls (init ++ [call]) w result = init ++ [{call with result := some result}] := by
  have hmap : init.map (fun d => if d.worker = w then {d with result := some result} else d) = init := by
    refine (List.map_congr_left fun d hd => ?_).trans (List.map_id init)
    rw [if_neg (hinit d hd)]
    rfl
  simp [answerCalls, hmap, hcall]

theorem answer_inv {s : State A O R} {w : Token} {prepared : Receipt A O R} {result : CallResult O}
    (h : Inv N s) (hw : s.workers w = .calling prepared) (hallows : N.kind.allows result = true) :
    Inv N (({s with calls := answerCalls s.calls w result} : State A O R).setWorker w (.called prepared result)) := by
  have hworker := h.workers w
  rw [hw] at hworker
  obtain ⟨hstarted, init, call, hcalls, hcall, -, hinit⟩ := hworker
  have hanswered : answerCalls s.calls w result = init ++ [{call with result := some result}] := by
    rw [hcalls]
    exact answerCalls_last hcall hinit
  have hsettled := h.once init call hcalls
  have hworkers : ∀ d ∈ answerCalls s.calls w result, ∃ d' ∈ s.calls, d'.worker = d.worker := by
    intro d hd
    obtain ⟨d', hd', rfl⟩ := List.mem_map.mp hd
    exact ⟨d', hd', by split <;> rfl⟩
  have hclosed {status : AttemptStatus} (hs : s.attempt.status = status) (hne : status ≠ .started) : False :=
    hne (hs.symm.trans hstarted)
  refine ⟨?_, ?_, ?_, ?_, ?_, ?_, fun w' => ?_⟩
  · intro init' call' hcalls' d hd
    obtain ⟨rfl, -⟩ := List.append_inj' (hanswered.symm.trans hcalls') rfl
    exact hsettled d hd
  · intro hs
    simp [State.setWorker, hstarted] at hs
  · exact fun hs => (hclosed hs (by decide)).elim
  · intro _
    obtain ⟨init', call', hcalls', htoken⟩ := h.started hstarted
    obtain ⟨rfl, hlast⟩ := List.append_inj' (hcalls.symm.trans hcalls') rfl
    obtain rfl : call = call' := by simpa using hlast
    exact ⟨init, _, hanswered, htoken⟩
  · exact fun hs => (hclosed hs (by decide)).elim
  · intro d hd r hr
    change d ∈ answerCalls s.calls w result at hd
    rw [hanswered] at hd
    rcases List.mem_append.mp hd with hd | hd
    · exact h.allowed d (by simp [hcalls, hd]) r hr
    · rw [List.mem_singleton.mp hd] at hr
      cases hr
      exact hallows
  · show WorkerInv _ w' (Function.update s.workers w _ w')
    by_cases heq : w' = w
    · subst heq
      rw [Function.update_self]
      exact ⟨hstarted, init, _, hanswered, hcall, rfl, hinit⟩
    · rw [Function.update_of_ne heq]
      have hsilent (hs : Silent s w') : ∀ d ∈ answerCalls s.calls w result, d.worker ≠ w' := by
        intro d hd
        obtain ⟨d', hd', hsame⟩ := hworkers d hd
        rw [← hsame]
        exact hs d' hd'
      have hother {r : Option (CallResult O)} (hlast : LastCall s w' r) : False := by
        obtain ⟨init', call', hcalls', hcall', -⟩ := hlast
        obtain ⟨-, hlast⟩ := List.append_inj' (hcalls.symm.trans hcalls') rfl
        obtain rfl : call = call' := by simpa using hlast
        exact heq (hcall'.symm.trans hcall)
      have hworker := h.workers w'
      cases hw' : s.workers w' with
      | claimed prepared seen =>
        rw [hw'] at hworker
        have hlength : (answerCalls s.calls w result).length = s.calls.length := List.length_map _
        refine ⟨hsilent hworker.1, hlength ▸ hworker.2.1, fun hseen => ?_⟩
        exact absurd hstarted (hworker.2.2 (hseen.trans hlength)).1
      | calling prepared => rw [hw'] at hworker; exact (hother hworker.2).elim
      | called prepared r => rw [hw'] at hworker; exact (hother hworker.2).elim
      | finished => trivial
      | idle => rw [hw'] at hworker; exact hsilent hworker
      | admitted prepared => rw [hw'] at hworker; exact hsilent hworker
      | refused seen => rw [hw'] at hworker; exact hsilent hworker

/-- What the worker of the open call may leave when it records its result. -/
structure Closes (attempt : Attempt A O R) (result : CallResult O) : Prop where
  closed : attempt.status ∈ [.authorization, .returned, .failed]
  parked : attempt.status = .authorization → ∃ q, result = .waiting q ∧ attempt.receipt.authorization = some q
  returned : attempt.status = .returned → ∃ output, result = .completed output ∧
    attempt.receipt.output = some output ∧ attempt.receipt.workerToken = none

theorem Inv.close {s : State A O R} {w : Token} {prepared : Receipt A O R} {result : CallResult O}
    {attempt : Attempt A O R} (h : Inv N s) (hw : s.workers w = .called prepared result)
    (hcloses : Closes attempt result) : Inv N ((s.setAttempt attempt).setWorker w .finished) := by
  have hworker := h.workers w
  rw [hw] at hworker
  obtain ⟨hstarted, init, call, hcalls, hcall, hresult, -⟩ := hworker
  have hsettled := h.once init call hcalls
  have hclosed := hcloses.closed
  refine ⟨h.once, ?_, ?_, ?_, ?_, h.allowed, fun w' => ?_⟩
  · intro hs
    change attempt.status ∈ _ at hs
    simp only [List.mem_cons, List.not_mem_nil, or_false] at hclosed
    rcases hclosed with hs' | hs' | hs' <;> simp [hs'] at hs
  · intro hs d hd
    obtain ⟨q, hq, hreceipt⟩ := hcloses.parked hs
    change d ∈ s.calls at hd
    rw [hcalls] at hd
    rcases List.mem_append.mp hd with hd | hd
    · obtain ⟨q', hq', hres⟩ := hsettled d hd
      exact ⟨q', hq', .inl hres⟩
    · obtain rfl := List.mem_singleton.mp hd
      exact ⟨q, hq ▸ hresult, .inr hreceipt⟩
  · intro hs
    change attempt.status = _ at hs
    simp [hs] at hclosed
  · intro hs
    obtain ⟨output, hout, hreceipt, htoken⟩ := hcloses.returned hs
    exact ⟨init, call, output, hcalls, hout ▸ hresult, hreceipt, htoken⟩
  · show WorkerInv _ w' (Function.update s.workers w _ w')
    by_cases heq : w' = w
    · subst heq
      rw [Function.update_self]
      trivial
    · rw [Function.update_of_ne heq]
      have hother {r : Option (CallResult O)} (hlast : LastCall s w' r) : False := by
        obtain ⟨init', call', hcalls', hcall', -⟩ := hlast
        obtain ⟨-, hlast⟩ := List.append_inj' (hcalls.symm.trans hcalls') rfl
        obtain rfl : call = call' := by simpa using hlast
        exact heq (hcall'.symm.trans hcall)
      have hworker := h.workers w'
      cases hw' : s.workers w' with
      | claimed prepared seen =>
        rw [hw'] at hworker
        exact ⟨hworker.1, hworker.2.1, fun hseen => absurd hstarted (hworker.2.2 hseen).1⟩
      | calling prepared => rw [hw'] at hworker; exact (hother hworker.2).elim
      | called prepared r => rw [hw'] at hworker; exact (hother hworker.2).elim
      | finished => trivial
      | idle => rw [hw'] at hworker; exact hworker
      | admitted prepared => rw [hw'] at hworker; exact hworker
      | refused seen => rw [hw'] at hworker; exact hworker

theorem record_inv {s : State A O R} {w : Token} {prepared : Receipt A O R} {result : CallResult O}
    (h : Inv N s) (hw : s.workers w = .called prepared result) : Inv N (record N s w prepared result) := by
  unfold record
  split
  · exact h.setWorker .finished trivial
  cases result with
  | completed output => exact h.close hw ⟨by simp [recorded], nofun, fun _ => ⟨output, rfl, rfl, rfl⟩⟩
  | waiting request => exact h.close hw ⟨by simp [recorded], fun _ => ⟨request, rfl, rfl⟩, nofun⟩
  | rejected error => exact h.close hw ⟨by simp [recorded], nofun, nofun⟩
  | permission error =>
    unfold recorded
    cases N.kind with
    | rest => exact h.close hw ⟨by simp, nofun, nofun⟩
    | toolCall => exact h.uncertain.setWorker .finished trivial
  | unknown => exact h.uncertain.setWorker .finished trivial

/-- A worker that is not admitted gives its claim back only while it is its own: no call
was started since it claimed. -/
def OwnClaim (s : State A O R) : Event O → Prop
  | .admission w =>
    match s.workers w with
    | .claimed _ seen => s.task.admits s.now = true ∨ seen = s.calls.length
    | _ => True
  | _ => True

theorem Inv.apply {s t : State A O R} {e : Event O} (h : Inv N s) (hown : OwnClaim s e)
    (hstep : apply N s e = some t) : Inv N t := by
  have hworker (w : Token) := h.workers w
  cases e with
  | tick seconds => cases hstep; exact h.congr rfl rfl rfl fun _ hq => hq
  | run stopped cancelRequested => cases hstep; exact h.congr rfl rfl rfl fun _ hq => hq
  | task task => cases hstep; exact h.congr rfl rfl rfl fun _ hq => hq
  | resolve request =>
    cases hstep
    refine h.congr rfl rfl rfl fun q hq => ?_
    by_cases heq : q = request
    · subst heq; exact Function.update_self ..
    · exact (Function.update_of_ne heq ..).trans hq
  | enginePass => cases hstep; exact executeEffect_inv h
  | claim w =>
    simp only [Jobs.apply] at hstep
    split at hstep
    · next hw => cases hstep; exact claim_inv h hw
    · cases hstep
  | admission w =>
    simp only [Jobs.apply] at hstep
    split at hstep
    · next hw =>
      cases hstep
      simp only [OwnClaim, hw] at hown
      exact admission_inv h hw hown
    · cases hstep
  | dispatch w =>
    simp only [Jobs.apply] at hstep
    split at hstep
    · next hw =>
      cases hstep
      have hsilent := hworker w
      rw [hw] at hsilent
      exact markDispatched_inv h hsilent.1
    · next hw =>
      cases hstep
      have hsilent := hworker w
      rw [hw] at hsilent
      exact markDispatched_inv h hsilent
    · cases hstep
  | answer w result =>
    simp only [Jobs.apply] at hstep
    split at hstep
    · next hw =>
      split at hstep
      · next hallows => cases hstep; exact answer_inv h hw hallows
      · cases hstep
    · cases hstep
  | raise w error =>
    have hsilent := hworker w
    simp only [Jobs.apply] at hstep
    split at hstep
    · next hw => cases hstep; rw [hw] at hsilent; exact raised_inv h hsilent.1
    · next hw => cases hstep; rw [hw] at hsilent; exact raised_inv h hsilent
    · next hw => cases hstep; rw [hw] at hsilent; exact raised_inv h hsilent
    · cases hstep
  | record w =>
    simp only [Jobs.apply] at hstep
    split at hstep
    · next hw => cases hstep; exact record_inv h hw
    · cases hstep
  | crash w =>
    simp only [Jobs.apply] at hstep
    split at hstep
    · cases hstep
    · cases hstep; exact h.setWorker .finished trivial

/-! ### Whole runs -/

/-- At most one remote call, or for a Tool one more after each suspended call whose
authorization was resolved; and a returned response is the one of the last call. -/
structure AtMostOnce (N : Activity A O R) (s : State A O R) : Prop where
  again : ∀ init call, s.calls = init ++ [call] → ∀ d ∈ init, Settled s d
  rest : N.kind = .rest → s.calls.length ≤ 1
  response : s.attempt.status = .returned → ∃ init call output, s.calls = init ++ [call] ∧
    call.result = some (.completed output) ∧ s.attempt.receipt.output = some output

theorem Inv.atMostOnce {s : State A O R} (h : Inv N s) : AtMostOnce N s where
  again := h.once
  rest hkind := by
    rcases s.calls.eq_nil_or_concat with hcalls | ⟨init, call, hcalls⟩
    · simp [hcalls]
    · rw [List.concat_eq_append] at hcalls
      cases init with
      | nil => simp [hcalls]
      | cons d rest =>
        -- an earlier call would have been suspended, which a request never is
        obtain ⟨q, hq, -⟩ := h.once _ _ hcalls d List.mem_cons_self
        have hallowed := h.allowed d (by simp [hcalls]) _ hq
        rw [hkind] at hallowed
        cases hallowed
  response hs := by
    obtain ⟨init, call, output, hcalls, hresult, hreceipt, -⟩ := h.returned hs
    exact ⟨init, call, output, hcalls, hresult, hreceipt⟩

def Event.isEngine : Event O → Bool
  | .enginePass => true
  | _ => false

/-- Only the engine rewrites a returned attempt. -/
theorem Inv.returned_stands {s t : State A O R} {e : Event O} (h : Inv N s) (hown : OwnClaim s e)
    (hstep : Jobs.apply N s e = some t) (hengine : e.isEngine = false) (hs : s.attempt.status = .returned) :
    t.attempt = s.attempt := by
  obtain ⟨init, call, output, hcalls, hresult, -, htoken⟩ := h.returned hs
  cases e with
  | tick seconds => cases hstep; rfl
  | run stopped cancelRequested => cases hstep; rfl
  | task task => cases hstep; rfl
  | resolve request => cases hstep; rfl
  | enginePass => cases hengine
  | claim w =>
    simp only [Jobs.apply] at hstep
    split at hstep
    · cases hstep
      simp [claim, hs, State.setWorker]
    · cases hstep
  | admission w =>
    simp only [Jobs.apply] at hstep
    split at hstep
    · next hw =>
      cases hstep
      unfold admission
      split
      · rfl
      · next hnot =>
        have hworker := h.workers w
        rw [hw] at hworker
        simp only [OwnClaim, hw] at hown
        obtain ⟨q, hq, -⟩ := (hworker.2.2 (hown.resolve_left hnot)).2 call (by simp [hcalls])
        rw [hresult] at hq
        cases hq
    · cases hstep
  | dispatch w =>
    simp only [Jobs.apply] at hstep
    split at hstep
    · cases hstep; simp [markDispatched, hs, State.setWorker]
    · cases hstep; simp [markDispatched, hs, State.setWorker]
    · cases hstep
  | answer w result =>
    simp only [Jobs.apply] at hstep
    split at hstep
    · split at hstep
      · cases hstep; rfl
      · cases hstep
    · cases hstep
  | raise w error =>
    simp only [Jobs.apply] at hstep
    split at hstep
    · cases hstep; simp [raised, htoken, State.setWorker]
    · cases hstep; simp [raised, htoken, State.setWorker]
    · cases hstep; simp [raised, htoken, State.setWorker]
    · cases hstep
  | record w =>
    simp only [Jobs.apply] at hstep
    split at hstep
    · cases hstep; simp [record, htoken, State.setWorker]
    · cases hstep
  | crash w =>
    simp only [Jobs.apply] at hstep
    split at hstep
    · cases hstep
    · cases hstep; rfl

/-- **At-most-once dispatch.** In a run in which every worker that is not admitted still
owns its claim, the remote operation is started at most once, or for a Tool once more
after each suspension that was resolved; a returned response is the one of the last
call, and no worker overwrites it. -/
theorem external_dispatch_at_most_once (N : Activity A O R) (es : List (Event O)) (s : State A O R)
    (hrun : Steps (Guarded (Executes (apply N)) OwnClaim) {} es s) :
    AtMostOnce N s ∧ ∀ e t, e.isEngine = false → OwnClaim s e → apply N s e = some t →
      s.attempt.status = .returned → t.attempt = s.attempt := by
  have hinv : Inv N s := hrun.invariant (fun _ _ _ h hstep => h.apply hstep.1 hstep.2) Inv.initial
  exact ⟨hinv.atMostOnce, fun e t hengine hown hstep hs => hinv.returned_stands hown hstep hengine hs⟩

end Safety

/-! A Tool activity whose arguments and outputs are texts. -/

def toolActivity : Activity String String String :=
  {kind := .toolCall, arguments := "{}", externalOutputs := some}

/-- One worker dispatches and its response is recorded. -/
def plainRun : List (Event String) :=
  [.enginePass, .claim 1, .admission 1, .dispatch 1, .answer 1 (.completed "done"), .record 1]

theorem external_dispatch_at_most_once_plain :
    AtMostOnce toolActivity ((plainRun.foldlM (apply toolActivity) {}).getD {}) ∧
      ((plainRun.foldlM (apply toolActivity) {}).getD {}).attempt.receipt.output = some "done" := by
  refine ⟨(external_dispatch_at_most_once toolActivity plainRun _ ?_).1, rfl⟩
  refine .cons ⟨trivial, rfl⟩ <| .cons ⟨trivial, rfl⟩ <| .cons ⟨.inl rfl, rfl⟩ <| .cons ⟨trivial, rfl⟩ <|
    .cons ⟨trivial, rfl⟩ <| .cons ⟨trivial, rfl⟩ (.nil _)

/-- Worker 1 stalls past its claim, worker 2 is armed in its place and records its
response. The user then holds the Task, so that worker 1 is not admitted and gives back
a claim it no longer has: worker 3 calls again. -/
def staleRelease : List (Event String) :=
  [.enginePass, .claim 1, .tick 361, .enginePass, .claim 2, .admission 2, .dispatch 2,
    .answer 2 (.completed "first"), .record 2, .task {heldByUser := true}, .admission 1, .task {},
    .claim 3, .admission 3, .dispatch 3, .answer 3 (.completed "second")]

theorem stale_release_dispatches_twice :
    ∃ s, Steps (Executes (apply toolActivity)) {} staleRelease s ∧ ¬ AtMostOnce toolActivity s := by
  refine ⟨(staleRelease.foldlM (apply toolActivity) {}).getD {}, Steps.of_foldlM rfl, fun h => ?_⟩
  obtain ⟨q, hq, -⟩ := h.again [⟨2, some "{}", none, some (.completed "first")⟩]
    ⟨3, some "{}", none, some (.completed "second")⟩ rfl _ List.mem_cons_self
  cases hq

end Galaris.Process.Jobs
