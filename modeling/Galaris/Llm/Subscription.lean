import Galaris.Base.Loop
import Galaris.Base.Transition
import Galaris.Base.Worklist
import Mathlib.Data.Finset.Option

/-! Who may use a personal subscription (`llm/subscription_policy.py`).

A call is granted the subscription of its owner where all the evidence of who asked for it is of the owner. The
evidence of a Task is gathered from it and its causal ancestors, of which no more than a hundred are visited and
the deleted ones are not read; what is recorded on the others is not seen (`attributed_iff`). -/
namespace Galaris.Llm.Subscription

open Loop Transition Worklist

/-- Rows are numbered, and users too. -/
abbrev Id := Nat
abbrev User := Nat

structure Task where
  requesterUserId : Option User
  createdBy : Option User
  messengerConnectionId : Option Id
  messengerMessageId : Option Id
  parentId : Option Id
  sourceTaskId : Option Id
  /-- Whether `deleted_at` is set. -/
  deleted : Bool

/-- A requester is recorded on inbound messages only (`messenger/journal.py`). -/
structure Message where
  direction : String
  requesterUserId : Option User
  deleted : Bool
  recorded : direction ≠ "inbound" → requesterUserId = none

structure ProcessRun where
  createdBy : Option User
  taskId : Option Id
  deleted : Bool

/-- The rows. A Task has one link to a round at most. -/
structure Store where
  tasks : Id → Option Task
  messages : Id → Option Message
  /-- The requester of a round. -/
  rounds : Id → Option (Option User)
  taskRounds : Id → Option Id
  runs : Id → Option ProcessRun
  /-- Whether a user is active. -/
  users : List (User × Bool)

/-- The rows that a session reads: the deleted ones are left out of every query
(`core/database/history.py`). Rounds and their links to Tasks have no history. -/
def Store.read (store : Store) : Store :=
  {store with
    tasks := fun id => (store.tasks id).filter fun task => !task.deleted
    messages := fun id => (store.messages id).filter fun message => !message.deleted
    runs := fun id => (store.runs id).filter fun run => !run.deleted}

/-- `_Evidence`. -/
structure Evidence where
  userIds : Finset User := ∅
  messengerOrigin : Bool := false
  messengerUserIds : Finset User := ∅
deriving DecidableEq

namespace Evidence

def add (e : Evidence) (user : Option User) : Evidence := {e with userIds := e.userIds ∪ user.toFinset}

def origin (e : Evidence) : Evidence := {e with messengerOrigin := true}

def addMessenger (e : Evidence) (user : Option User) : Evidence :=
  let e := e.origin.add user
  {e with messengerUserIds := e.messengerUserIds ∪ user.toFinset}

end Evidence

section Rows
variable (store : Store)

/-- `_message_evidence`. -/
def messageEvidence (id : Id) (e : Evidence) : Evidence :=
  match store.messages id with
  | some message => if message.direction = "inbound" then e.addMessenger message.requesterUserId else e.origin
  | none => e.origin

/-- `_round_evidence`. -/
def roundEvidence (id : Id) (e : Evidence) : Evidence :=
  match store.rounds id with
  | some requester => e.addMessenger requester
  | none => e.origin

/-- What a Task adds, and its rows. -/
def visit (id : Id) (e : Evidence) : Evidence :=
  match store.tasks id with
  | none => e
  | some task =>
    let e := e.add task.requesterUserId
    let e := if task.requesterUserId = none then e.add task.createdBy else e
    let e :=
      if task.messengerConnectionId ≠ none ∨ task.messengerMessageId ≠ none then
        let e := e.origin
        if task.requesterUserId ≠ none then e.addMessenger task.requesterUserId else e
      else e
    let e := task.messengerMessageId.elim e fun message => messageEvidence store message e
    (store.taskRounds id).elim e fun round => roundEvidence store round e

/-- What is pending after a Task; the last one is taken first. -/
def links (id : Id) : List Id := (store.tasks id).elim [] fun task => task.sourceTaskId.toList ++ task.parentId.toList

structure Traversal where
  walk : Walk Id
  evidence : Evidence

/-- One turn of the loop of `_task_evidence`. -/
def turnOf (t : Traversal) : Option Traversal :=
  if t.walk.visited.length < 100 then
    match t.walk.pending with
    | [] => none
    | current :: rest =>
      if current ∈ t.walk.visited then some ⟨⟨rest, t.walk.visited⟩, t.evidence⟩
      else some ⟨⟨links store current ++ rest, current :: t.walk.visited⟩, visit store current t.evidence⟩
  else none

/-- `_task_evidence`; there are never more turns than so many (`traversal_done`). -/
def taskEvidence (id : Id) (e : Evidence) : Evidence := (repeated (turnOf store) 301 ⟨⟨[id], []⟩, e⟩).evidence

/-- `_process_evidence`, with the evidence of Tasks. -/
def processEvidence (walk : Id → Evidence → Evidence) (id : Id) (e : Evidence) : Evidence :=
  match store.runs id with
  | none => e
  | some run =>
    let e := e.add run.createdBy
    run.taskId.elim e fun task => walk task e

end Rows

/-! ### Enforcement -/

/-- What the execution authority refers to, where its kind is known and its identifier is one. -/
inductive Source
  | task (id : Id)
  | message (id : Id)
  | conversationRound (id : Id)
  | processProjection (id : Id)
deriving DecidableEq, Repr

/-- `LLMExecutionAuthority`. -/
structure Authority where
  requesterUserId : Option User
  source : Option Source
  messengerOrigin : Bool
deriving DecidableEq, Repr

structure Provider where
  catalogCode : Option String
  userId : Option User
deriving DecidableEq, Repr

/-- A call, with what its context says. -/
structure Call where
  provider : Provider
  /-- The application-wide confirmation. -/
  acknowledged : Bool
  authority : Option Authority
  taskId : Option Id
  conversationRoundId : Option Id
  processRunId : Option Id
  currentUserId : Option User

section Enforcement
variable (store : Store) (walk : Id → Evidence → Evidence)

/-- `_scope_evidence`. -/
def scopeEvidence (authority : Authority) (e : Evidence) : Evidence :=
  let e := if authority.messengerOrigin then e.addMessenger authority.requesterUserId
    else e.add authority.requesterUserId
  match authority.source with
  | none => e
  | some (.task id) => walk id e
  | some (.message id) => messageEvidence store id e
  | some (.conversationRound id) => roundEvidence store id e
  | some (.processProjection id) => processEvidence store walk id e

/-- The evidence of a call. -/
def callEvidence (call : Call) : Evidence :=
  let e : Evidence := {}
  let e := call.authority.elim e fun authority => scopeEvidence store walk authority e
  let e := call.taskId.elim e fun id => walk id e
  let e := call.conversationRoundId.elim e fun id => roundEvidence store id e
  let e := call.processRunId.elim e fun id => processEvidence store walk id e
  e.add call.currentUserId

/-- The users that are active. -/
def activeUsers : List User := (store.users.filter (·.2)).map (·.1)

/-- `enforce_subscription_access`, with the evidence of Tasks; what is raised is the key of its text. -/
def enforceWith (call : Call) : Except String (Option User) :=
  if call.provider.catalogCode ≠ some "openai-codex" then .ok none
  else if ¬call.acknowledged then .error "llm_api.errors.subscription_confirmation_required"
  else
    match call.provider.userId with
    | none => .error "llm_api.errors.subscription_owner_required"
    | some owner =>
      if store.users.lookup owner ≠ some true then .error "llm_api.errors.subscription_owner_invalid"
      else
        let e := callEvidence store walk call
        if e.messengerOrigin ∧ e.messengerUserIds = ∅ then .error "llm_api.errors.subscription_messenger_unlinked"
        else if e.messengerOrigin ∧ e.messengerUserIds ≠ {owner} then .error "llm_api.errors.subscription_user_mismatch"
        else if e.userIds = {owner} then .ok (some owner)
        else if e.userIds ≠ ∅ then .error "llm_api.errors.subscription_user_mismatch"
        else if activeUsers store = [owner] then .ok (some owner)
        else .error "llm_api.errors.subscription_requester_unknown"

end Enforcement

/-- `enforce_subscription_access`. -/
def enforceSubscriptionAccess (store : Store) (call : Call) : Except String (Option User) :=
  enforceWith store.read (taskEvidence store.read) call

/-! ### Evidence is added up -/

namespace Evidence

/-- The evidence of both. -/
def join (a b : Evidence) : Evidence := ⟨a.userIds ∪ b.userIds,
    a.messengerOrigin || b.messengerOrigin, a.messengerUserIds ∪ b.messengerUserIds⟩

/-- Evidence is what users it names. -/
theorem ext_of {a b : Evidence} (husers : ∀ v, v ∈ a.userIds ↔ v ∈ b.userIds)
    (horigin : a.messengerOrigin = true ↔ b.messengerOrigin = true)
    (hmessenger : ∀ v, v ∈ a.messengerUserIds ↔ v ∈ b.messengerUserIds) : a = b := by
  obtain ⟨users, origin, messenger⟩ := a
  obtain ⟨users', origin', messenger'⟩ := b
  obtain rfl : users = users' := Finset.ext husers
  obtain rfl : origin = origin' := Bool.eq_iff_iff.mpr horigin
  obtain rfl : messenger = messenger' := Finset.ext hmessenger
  rfl

end Evidence

/-- A function adds the same evidence to any. -/
def Adds (f : Evidence → Evidence) : Prop := ∀ e, f e = e.join (f {})

theorem Adds.id : Adds fun e => e := fun e => by
  refine Evidence.ext_of ?_ ?_ ?_ <;> simp [Evidence.join]

/-- What adds the same evidence to any does so one after the other. -/
theorem Adds.comp {f g : Evidence → Evidence} (hf : Adds f) (hg : Adds g) : Adds fun e => g (f e) := fun e => by
  have h := hg (f e)
  have h' := hg (f {})
  rw [hf e] at h
  dsimp only
  rw [h', hf e, h]
  refine Evidence.ext_of ?_ ?_ ?_ <;> simp [Evidence.join, or_assoc]

theorem adds_add (user : Option User) : Adds fun e => e.add user := fun e => by
  refine Evidence.ext_of ?_ ?_ ?_ <;> simp [Evidence.add, Evidence.join]

theorem adds_origin : Adds Evidence.origin := fun e => by
  refine Evidence.ext_of ?_ ?_ ?_ <;> simp [Evidence.origin, Evidence.join]

theorem adds_addMessenger (user : Option User) : Adds fun e => e.addMessenger user := fun e => by
  refine Evidence.ext_of ?_ ?_ ?_ <;> simp [Evidence.addMessenger, Evidence.origin, Evidence.add, Evidence.join]

/-- Evidence is added where there is something to add it for. -/
theorem Adds.elim {α : Type} {f : α → Evidence → Evidence} (hf : ∀ a, Adds (f a)) (o : Option α) :
    Adds fun e => o.elim e fun a => f a e := by
  cases o with
  | none => exact Adds.id
  | some a => exact hf a

section Rows
variable (store : Store)

theorem adds_messageEvidence (id : Id) : Adds (messageEvidence store id) := by
  unfold messageEvidence
  split
  · split
    · exact adds_addMessenger _
    · exact adds_origin
  · exact adds_origin

theorem adds_roundEvidence (id : Id) : Adds (roundEvidence store id) := by
  unfold roundEvidence
  split
  · exact adds_addMessenger _
  · exact adds_origin

/-- A Task adds the same evidence, whatever has been gathered before. -/
theorem adds_visit (id : Id) : Adds (visit store id) := by
  unfold visit
  split
  case h_1 => exact Adds.id
  case h_2 task htask =>
    have hcreated : Adds fun e => if task.requesterUserId = none then e.add task.createdBy else e := by
      split
      · exact adds_add _
      · exact Adds.id
    have hmessenger : Adds fun e => if task.messengerConnectionId ≠ none ∨ task.messengerMessageId ≠ none then
        (if task.requesterUserId ≠ none then e.origin.addMessenger task.requesterUserId else e.origin) else e := by
      split
      · split
        · exact adds_origin.comp (adds_addMessenger _)
        · exact adds_origin
      · exact Adds.id
    have hmessage := Adds.elim (fun message => adds_messageEvidence store message) task.messengerMessageId
    have hround := Adds.elim (fun round => adds_roundEvidence store round) (store.taskRounds id)
    exact ((((adds_add task.requesterUserId).comp hcreated).comp hmessenger).comp hmessage).comp hround

end Rows

/-! ### What is recorded on a Task -/

section Recorded
variable (store : Store) (id : Id)

/-- The requester of the message of a Task. -/
def MessageRequester (task : Task) (v : User) : Prop :=
  ∃ m message, task.messengerMessageId = some m ∧ store.messages m = some message ∧ message.requesterUserId = some v

/-- The requester of the round of a Task. -/
def RoundRequester (v : User) : Prop := ∃ r, store.taskRounds id = some r ∧ store.rounds r = some (some v)

/-- A user has asked for a Task, its message or its round, or has created it where nobody has asked for it. -/
def Recorded (v : User) : Prop := ∃ task, store.tasks id = some task ∧
  (task.requesterUserId = some v ∨ (task.requesterUserId = none ∧ task.createdBy = some v) ∨
    MessageRequester store task v ∨ RoundRequester store id v)

def FromMessenger : Prop := ∃ task, store.tasks id = some task ∧
  (task.messengerConnectionId ≠ none ∨ task.messengerMessageId ≠ none ∨ store.taskRounds id ≠ none)

/-- A linked requester of a Task that came from a messenger. -/
def MessengerRequester (v : User) : Prop := ∃ task, store.tasks id = some task ∧
  (((task.messengerConnectionId ≠ none ∨ task.messengerMessageId ≠ none) ∧ task.requesterUserId = some v) ∨
    MessageRequester store task v ∨ RoundRequester store id v)

end Recorded

section Rows
variable {store : Store} {id : Id}

/-- A message adds its requester, and that it came from a messenger. -/
theorem messageEvidence_empty (m : Id) : (messageEvidence store m {}).messengerOrigin = true ∧
    (∀ v, v ∈ (messageEvidence store m {}).userIds ↔ ∃ message, store.messages m = some message ∧
      message.requesterUserId = some v) ∧
    ∀ v, v ∈ (messageEvidence store m {}).messengerUserIds ↔ ∃ message,
        store.messages m = some message ∧ message.requesterUserId = some v := by
  unfold messageEvidence
  cases hmessage : store.messages m with
  | none => simp [Evidence.origin]
  | some message =>
    dsimp only
    by_cases hinbound : message.direction = "inbound"
    · rw [if_pos hinbound]
      simp [Evidence.addMessenger, Evidence.add, Evidence.origin]
    · rw [if_neg hinbound]
      simp [Evidence.origin, message.recorded hinbound]

/-- A round adds its requester, and that it came from a messenger. -/
theorem roundEvidence_empty (r : Id) : (roundEvidence store r {}).messengerOrigin = true ∧
    (∀ v, v ∈ (roundEvidence store r {}).userIds ↔ store.rounds r = some (some v)) ∧
    ∀ v, v ∈ (roundEvidence store r {}).messengerUserIds ↔ store.rounds r = some (some v) := by
  unfold roundEvidence
  cases hround : store.rounds r with
  | none => simp [Evidence.origin]
  | some requester => simp [Evidence.addMessenger, Evidence.add, Evidence.origin]

/-- What the fields of a Task add. -/
def ownEvidence (task : Task) : Evidence :=
  let e := Evidence.add {} task.requesterUserId
  let e := if task.requesterUserId = none then e.add task.createdBy else e
  if task.messengerConnectionId ≠ none ∨ task.messengerMessageId ≠ none then
    let e := e.origin
    if task.requesterUserId ≠ none then e.addMessenger task.requesterUserId else e
  else e

/-- What the fields of a Task add, in words. -/
theorem ownEvidence_spec (task : Task) :
    ((ownEvidence task).messengerOrigin = true ↔ task.messengerConnectionId ≠ none ∨ task.messengerMessageId ≠ none) ∧
      (∀ v, v ∈ (ownEvidence task).userIds ↔ task.requesterUserId = some v ∨
        (task.requesterUserId = none ∧ task.createdBy = some v)) ∧
      ∀ v, v ∈ (ownEvidence task).messengerUserIds ↔
        (task.messengerConnectionId ≠ none ∨ task.messengerMessageId ≠ none) ∧ task.requesterUserId = some v := by
  unfold ownEvidence
  by_cases hmessenger : task.messengerConnectionId ≠ none ∨ task.messengerMessageId ≠ none
  · cases hrequester : task.requesterUserId with
    | none => simp [hmessenger, Evidence.add, Evidence.origin]
    | some requester =>
      simp [hmessenger, Evidence.add, Evidence.origin, Evidence.addMessenger]
      exact fun _ => eq_comm
  · cases hrequester : task.requesterUserId with
    | none => simp [hmessenger, Evidence.add]
    | some requester =>
      simp [hmessenger, Evidence.add]
      exact fun _ => eq_comm

/-- What a Task adds, with its rows. -/
theorem visit_empty : ((visit store id {}).messengerOrigin = true ↔ FromMessenger store id) ∧
    (∀ v, v ∈ (visit store id {}).userIds ↔ Recorded store id v) ∧
    ∀ v, v ∈ (visit store id {}).messengerUserIds ↔ MessengerRequester store id v := by
  cases htask : store.tasks id with
  | none => simp [visit, FromMessenger, Recorded, MessengerRequester, htask]
  | some task =>
    obtain ⟨horigin, husers, hmessenger⟩ := ownEvidence_spec task
    have hmessage := Adds.elim (fun message => adds_messageEvidence store message)
        task.messengerMessageId (ownEvidence task)
    have hround := Adds.elim (fun round => adds_roundEvidence store round) (store.taskRounds id)
      (task.messengerMessageId.elim (ownEvidence task) fun message => messageEvidence store message (ownEvidence task))
    have hvisit : visit store id {} = ((ownEvidence task).join
        (task.messengerMessageId.elim {} fun message => messageEvidence store message {})).join
        ((store.taskRounds id).elim {} fun round => roundEvidence store round {}) := by
      dsimp only at hmessage hround
      rw [← hmessage, ← hround, visit, htask]
      rfl
    have hmessageUsers (v : User) : (v ∈ (task.messengerMessageId.elim {} fun message =>
        messageEvidence store message {}).userIds ↔ MessageRequester store task v) ∧
        (v ∈ (task.messengerMessageId.elim {} fun message =>
          messageEvidence store message {}).messengerUserIds ↔ MessageRequester store task v) := by
      cases hm : task.messengerMessageId with
      | none => simp [MessageRequester, hm]
      | some m => simp [MessageRequester, hm, messageEvidence_empty m]
    have hroundUsers (v : User) :
        (v ∈ ((store.taskRounds id).elim {} fun round => roundEvidence store round {}).userIds ↔
        RoundRequester store id v) ∧
        (v ∈ ((store.taskRounds id).elim {} fun round =>
          roundEvidence store round {}).messengerUserIds ↔ RoundRequester store id v) := by
      cases hr : store.taskRounds id with
      | none => simp [RoundRequester, hr]
      | some r => simp [RoundRequester, hr, roundEvidence_empty r]
    have hmessageOrigin : (task.messengerMessageId.elim {} fun message => messageEvidence store
        message {}).messengerOrigin = true ↔ task.messengerMessageId ≠ none := by
      cases hm : task.messengerMessageId with
      | none => simp
      | some m => simp [messageEvidence_empty m]
    have hroundOrigin : ((store.taskRounds id).elim {} fun round =>
        roundEvidence store round {}).messengerOrigin = true ↔ store.taskRounds id ≠ none := by
      cases hr : store.taskRounds id with
      | none => simp
      | some r => simp [roundEvidence_empty r]
    have hsame {Q : Task → Prop} : (∃ task, store.tasks id = some task ∧ Q task) ↔ Q task := by simp [htask]
    rw [hvisit, FromMessenger, hsame]
    refine ⟨?_, fun v => ?_, fun v => ?_⟩
    · simp only [Evidence.join, Bool.or_eq_true, horigin, hmessageOrigin, hroundOrigin, or_assoc, or_self_left]
    · rw [Recorded, hsame]
      simp only [Evidence.join, Finset.mem_union, husers, (hmessageUsers v).1, (hroundUsers v).1, or_assoc]
    · rw [MessengerRequester, hsame]
      simp only [Evidence.join, Finset.mem_union, hmessenger, (hmessageUsers v).2, (hroundUsers v).2, or_assoc]

end Rows

/-! ### The traversal of the Tasks -/

section Traversals
variable (store : Store)

/-- One turn that takes any of the pending Tasks. -/
def TurnOf (t t' : Traversal) : Prop := ∃ pending pending', pending.Perm t.walk.pending ∧
  turnOf store ⟨⟨pending, t.walk.visited⟩, t.evidence⟩ =
  some ⟨⟨pending', t'.walk.visited⟩, t'.evidence⟩ ∧ pending'.Perm t'.walk.pending

/-- Turns from a Task in any order. -/
def Turns (id : Id) (e : Evidence) (turns : Nat) (t : Traversal) : Prop :=
  Steps (fun t (_ : Unit) t' => TurnOf store t t') ⟨⟨[id], []⟩, e⟩ (List.replicate turns ()) t

/-- A traversal from a Task, in any order, comes to its end with this evidence. -/
def Traverses (id : Id) (e e' : Evidence) : Prop :=
    ∃ turns t, Turns store id e turns t ∧ (∀ t', ¬TurnOf store t t') ∧ t.evidence = e'

variable {store}

/-- A turn visits a Task or passes it over. -/
theorem turnOf_cases {t t' : Traversal} (h : turnOf store t = some t') : turn (links store) 100 t.walk = some t'.walk ∧
    ((t'.walk.visited = t.walk.visited ∧ t'.evidence = t.evidence) ∨
      ∃ current, t'.walk.visited = current :: t.walk.visited ∧ t'.evidence = visit store current t.evidence) := by
  unfold turnOf at h
  split at h
  case isFalse => cases h
  case isTrue hbound =>
    split at h
    case h_1 => cases h
    case h_2 current rest hpending =>
      rw [turn, if_pos hbound, hpending]
      dsimp only
      split at h
      case isTrue hseen =>
        cases h
        exact ⟨if_pos hseen, .inl ⟨rfl, rfl⟩⟩
      case isFalse hnew =>
        cases h
        exact ⟨if_neg hnew, .inr ⟨current, rfl, rfl⟩⟩

theorem turnOf_eq_none (t : Traversal) : turnOf store t = none ↔ turn (links store) 100 t.walk = none := by
  unfold turnOf turn
  by_cases hbound : t.walk.visited.length < 100
  · rw [if_pos hbound, if_pos hbound]
    cases t.walk.pending with
    | nil => exact ⟨fun _ => rfl, fun _ => rfl⟩
    | cons current rest =>
      dsimp only
      by_cases hseen : current ∈ t.walk.visited
      · rw [if_pos hseen, if_pos hseen]
        simp
      · rw [if_neg hseen, if_neg hseen]
        simp
  · rw [if_neg hbound, if_neg hbound]
    simp

/-- A turn that gathers evidence is a turn of the traversal. -/
theorem TurnOf.turn {t t' : Traversal} (h : TurnOf store t t') : Turn (links store) 100 t.walk t'.walk := by
  obtain ⟨pending, pending', hpending, hturn, hpending'⟩ := h
  exact ⟨pending, pending', hpending, (turnOf_cases hturn).1, hpending'⟩

/-- A traversal in any order is done where no turn is left. -/
theorem done_of_stuck {t : Traversal} (h : ∀ t', ¬TurnOf store t t') : Done 100 t.walk := by
  cases hturn : turnOf store t with
  | none => exact (turn_eq_none t.walk).mp ((turnOf_eq_none t).mp hturn)
  | some t' => exact absurd ⟨_, _, .refl _, hturn, .refl _⟩ (h t')

/-- What has been visited has been added. -/
structure Added (store : Store) (start : Id) (e : Evidence) (t : Traversal) : Prop where
  inv : Inv (links store) 100 start t.walk
  evidence : t.evidence = t.walk.visited.foldr (visit store) e

theorem Added.turn {start : Id} {e : Evidence} {t t' : Traversal} (h : Added store start e t)
    (hturn : TurnOf store t t') : Added store start e t' := by
  refine ⟨h.inv.turn hturn.turn, ?_⟩
  obtain ⟨pending, pending', -, hstep, -⟩ := hturn
  obtain ⟨-, ⟨hvisited, hevidence⟩ | ⟨current, hvisited, hevidence⟩⟩ := turnOf_cases hstep
  · dsimp only at hvisited hevidence
    rw [hevidence, hvisited, h.evidence]
  · dsimp only at hvisited hevidence
    rw [hevidence, hvisited, h.evidence]
    rfl

theorem length_links (store : Store) (id : Id) : (links store id).length ≤ 2 := by
  unfold links
  cases store.tasks id with
  | none => exact Nat.zero_le _
  | some task => cases hsource : task.sourceTaskId <;> cases hparent : task.parentId <;> simp [hsource, hparent]

/-- In whatever order, there are no more than 301 turns. -/
theorem turns_bounded {id : Id} {e : Evidence} {turns : Nat} {t : Traversal}
    (h : Turns store id e turns t) : turns ≤ 301 := by
  have hstep : ∀ {t t' : Traversal} {turns : Nat},
      Steps (fun t (_ : Unit) t' => TurnOf store t t') t (List.replicate turns ()) t' →
      size 2 100 t'.walk + turns ≤ size 2 100 t.walk := by
    intro t t' turns hrun
    induction turns generalizing t with
    | zero => cases hrun; exact Nat.le_refl _
    | succ turns ih =>
      cases hrun with
      | cons hturn hrest =>
        have hless := hturn.turn.size_lt (length_links store)
        have hrest := ih hrest
        omega
  have hsize := hstep h
  have hstart : size 2 100 (⟨[id], []⟩ : Walk Id) = 301 := rfl
  dsimp only at hsize
  omega

/-- In any order what has been visited has been added. -/
theorem Turns.added {id : Id} {e : Evidence} {turns : Nat} {t : Traversal}
    (h : Turns store id e turns t) : Added store id e t :=
  h.invariant (P := Added store id e) (fun _ _ _ hadded hturn => hadded.turn hturn) ⟨inv_start _ _ _, rfl⟩

/-- What is added for the Tasks that have been visited. -/
theorem foldr_visit (visited : List Id) (e : Evidence) :
    ((visited.foldr (visit store) e).messengerOrigin = true ↔ e.messengerOrigin = true ∨
      ∃ id ∈ visited, FromMessenger store id) ∧
      (∀ v, v ∈ (visited.foldr (visit store) e).userIds ↔ v ∈ e.userIds ∨ ∃ id ∈ visited, Recorded store id v) ∧
      ∀ v, v ∈ (visited.foldr (visit store) e).messengerUserIds ↔ v ∈ e.messengerUserIds ∨
      ∃ id ∈ visited, MessengerRequester store id v := by
  induction visited with
  | nil => simp
  | cons id rest ih =>
    obtain ⟨horigin, husers, hmessenger⟩ := @visit_empty store id
    obtain ⟨hrestOrigin, hrestUsers, hrestMessenger⟩ := ih
    rw [List.foldr_cons, adds_visit store id]
    refine ⟨?_, fun v => ?_, fun v => ?_⟩
    · simp only [Evidence.join, Bool.or_eq_true, horigin, hrestOrigin, List.exists_mem_cons_iff]
      exact or_assoc.trans (or_congr_right or_comm)
    · simp only [Evidence.join, Finset.mem_union, husers, hrestUsers, List.exists_mem_cons_iff]
      exact or_assoc.trans (or_congr_right or_comm)
    · simp only [Evidence.join, Finset.mem_union, hmessenger, hrestMessenger, List.exists_mem_cons_iff]
      exact or_assoc.trans (or_congr_right or_comm)

/-- The loop is a traversal that comes to its end. -/
theorem traversal_done (store : Store) (id : Id) (e : Evidence) :
    ∃ turns, Turns store id e turns (repeated (turnOf store) 301 ⟨⟨[id], []⟩, e⟩) ∧
    Done 100 (repeated (turnOf store) 301 ⟨⟨[id], []⟩, e⟩).walk := by
  have hruns : ∀ fuel t, ∃ turns, Steps (fun t (_ : Unit) t' => TurnOf store t t') t
      (List.replicate turns ()) (repeated (turnOf store) fuel t) := by
    intro fuel
    induction fuel with
    | zero => exact fun t => ⟨0, .nil t⟩
    | succ fuel ih =>
      intro t
      rw [repeated]
      cases hturn : turnOf store t with
      | none => exact ⟨0, .nil t⟩
      | some t' =>
        obtain ⟨turns, hrun⟩ := ih t'
        exact ⟨turns + 1, .cons ⟨_, _, .refl _, hturn, .refl _⟩ hrun⟩
  obtain ⟨turns, hrun⟩ := hruns 301 ⟨⟨[id], []⟩, e⟩
  refine ⟨turns, hrun, ?_⟩
  have hless (t t' : Traversal) (hturn : turnOf store t = some t') : size 2 100 t'.walk < size 2 100 t.walk :=
    (Turn.of_turn (turnOf_cases hturn).1).size_lt (length_links store)
  have hends : turnOf store (repeated (turnOf store) 301 ⟨⟨[id], []⟩, e⟩) = none :=
      repeated_ends (fun (t : Traversal) => size 2 100 t.walk) hless (Nat.le_refl 301)
  exact (turn_eq_none _).mp ((turnOf_eq_none _).mp hends)

/-- What a traversal has come to: what is recorded on the Tasks that it has visited, which are all where
there are no more than a hundred. -/
structure Gathered (store : Store) (id : Id) (e e' : Evidence) (visited : List Id) : Prop where
  origin : e'.messengerOrigin = true ↔ e.messengerOrigin = true ∨ ∃ p ∈ visited, FromMessenger store p
  users : ∀ v, v ∈ e'.userIds ↔ v ∈ e.userIds ∨ ∃ p ∈ visited, Recorded store p v
  messenger : ∀ v, v ∈ e'.messengerUserIds ↔ v ∈ e.messengerUserIds ∨ ∃ p ∈ visited, MessengerRequester store p v
  reached : ∀ p ∈ visited, Reach (links store) id p
  all : AtMost (links store) id 100 → ∀ p, Reach (links store) id p → p ∈ visited

/-- When no turn is left, the traversal has gathered what is recorded on what it has visited. -/
theorem Turns.gathered {id : Id} {e : Evidence} {turns : Nat} {t : Traversal}
    (h : Turns store id e turns t) (hdone : Done 100 t.walk) :
    Gathered store id e t.evidence t.walk.visited := by
  obtain ⟨hinv, hevidence⟩ := h.added
  obtain ⟨horigin, husers, hmessenger⟩ := @foldr_visit store t.walk.visited e
  rw [← hevidence] at horigin husers hmessenger
  exact ⟨horigin, husers, hmessenger, fun p hp => hinv.reached p (.inr hp),
    fun hbound p hp => (hinv.visited_iff hdone hbound p).mpr hp⟩

/-- The loop gathers what the Tasks that it visits tell. -/
theorem taskEvidence_gathered (store : Store) (id : Id) (e : Evidence) :
    ∃ visited, Gathered store id e (taskEvidence store id e) visited := by
  obtain ⟨turns, hturns, hdone⟩ := traversal_done store id e
  exact ⟨_, hturns.gathered hdone⟩

theorem Traverses.gathered {id : Id} {e e' : Evidence} (h : Traverses store id e e') :
    ∃ visited, Gathered store id e e' visited := by
  obtain ⟨turns, t, hturns, hstuck, rfl⟩ := h
  exact ⟨_, hturns.gathered (done_of_stuck hstuck)⟩

/-- In whatever order no more than a hundred Tasks are visited, they add the same. -/
theorem Gathered.unique {id : Id} {e a b : Evidence} {visited visited' : List Id} (hbound : AtMost (links store) id 100)
    (h : Gathered store id e a visited) (h' : Gathered store id e b visited') : a = b := by
  have hsame {Q : Id → Prop} : (∃ p ∈ visited, Q p) ↔ ∃ p ∈ visited', Q p :=
    ⟨fun ⟨p, hp, hQ⟩ => ⟨p, h'.all hbound p (h.reached p hp), hQ⟩,
      fun ⟨p, hp, hQ⟩ => ⟨p, h.all hbound p (h'.reached p hp), hQ⟩⟩
  refine Evidence.ext_of (fun v => ?_) ?_ fun v => ?_
  · rw [h.users, h'.users, hsame]
  · rw [h.origin, h'.origin, hsame]
  · rw [h.messenger, h'.messenger, hsame]

end Traversals

/-! ### Who has asked for a call -/

section Calls
variable (store : Store) (call : Call)

/-- The source of the authority of a call. -/
def sources : List Source := (call.authority.bind (·.source)).toList

def callRuns : List Id := call.processRunId.toList ++ (sources call).filterMap fun
  | .processProjection id => some id
  | _ => none

/-- The Tasks whose evidence is gathered. -/
def callTasks : List Id := call.taskId.toList ++ ((sources call).filterMap fun
  | .task id => some id
  | _ => none) ++ (callRuns call).filterMap fun run => (store.runs run).bind (·.taskId)

def callRounds : List Id := call.conversationRoundId.toList ++ (sources call).filterMap fun
  | .conversationRound id => some id
  | _ => none

def callMessages : List Id := (sources call).filterMap fun
  | .message id => some id
  | _ => none

/-- A user is a linked requester of a messenger origin of the call. -/
def LinkedRequester (v : User) : Prop :=
  (∃ authority, call.authority = some authority ∧ authority.messengerOrigin = true ∧
    authority.requesterUserId = some v) ∨
    (∃ m ∈ callMessages call, ∃ message, store.messages m = some message ∧ message.requesterUserId = some v) ∨
    (∃ r ∈ callRounds call, store.rounds r = some (some v)) ∨
    ∃ task ∈ callTasks store call, ∃ id, Reach (links store) task id ∧ MessengerRequester store id v

end Calls

/-- A function keeps the evidence, and adds linked requesters of the call only. -/
structure Extends (store : Store) (call : Call) (f : Evidence → Evidence) : Prop where
  users : ∀ e, e.userIds ⊆ (f e).userIds
  origin : ∀ e, e.messengerOrigin = true → (f e).messengerOrigin = true
  linked : ∀ e, ∀ v ∈ (f e).messengerUserIds, v ∈ e.messengerUserIds ∨ LinkedRequester store call v

section Extends
variable {store : Store} {call : Call}

theorem Extends.comp {f g : Evidence → Evidence} (hf : Extends store call f)
    (hg : Extends store call g) : Extends store call fun e => g (f e) where
  users e := (hf.users e).trans (hg.users (f e))
  origin e h := hg.origin (f e) (hf.origin e h)
  linked e v hv := (hg.linked (f e) v hv).elim (hf.linked e v) .inr

/-- Adding evidence keeps what there is. -/
theorem Extends.of_adds {f : Evidence → Evidence} (hf : Adds f)
    (hlinked : ∀ v ∈ (f {}).messengerUserIds, LinkedRequester store call v) :
    Extends store call f where
  users e := by
    rw [hf e]
    exact Finset.subset_union_left
  origin e h := by
    rw [hf e]
    exact Bool.or_eq_true_iff.mpr (.inl h)
  linked e v hv := by
    rw [hf e] at hv
    exact (Finset.mem_union.mp hv).imp_right (hlinked v)

theorem Extends.elim {α : Type} {f : α → Evidence → Evidence} {o : Option α}
    (hf : ∀ a, o = some a → Extends store call (f a)) :
    Extends store call fun e => o.elim e fun a => f a e := by
  cases o with
  | none => exact ⟨fun _ => Finset.Subset.refl _, fun _ h => h, fun _ _ hv => .inl hv⟩
  | some a => exact hf a rfl

theorem extends_add (user : Option User) : Extends store call fun e => e.add user :=
  .of_adds (adds_add user) fun v hv => absurd hv (Finset.notMem_empty v)

theorem extends_message {m : Id} (hm : m ∈ callMessages call) : Extends store call (messageEvidence store m) :=
  .of_adds (adds_messageEvidence store m) fun v hv => .inr (.inl ⟨m, hm, ((messageEvidence_empty m).2.2 v).mp hv⟩)

theorem extends_round {r : Id} (hr : r ∈ callRounds call) : Extends store call (roundEvidence store r) :=
  .of_adds (adds_roundEvidence store r) fun v hv => .inr (.inr (.inl ⟨r, hr, ((roundEvidence_empty r).2.2 v).mp hv⟩))

/-- Gathering the evidence of a Task of the call keeps what there is. -/
theorem extends_task {task : Id} (htask : task ∈ callTasks store call) :
    Extends store call (taskEvidence store task) where
  users e := by
    obtain ⟨visited, h⟩ := taskEvidence_gathered store task e
    exact fun v hv => (h.users v).mpr (.inl hv)
  origin e horigin := by
    obtain ⟨visited, h⟩ := taskEvidence_gathered store task e
    exact h.origin.mpr (.inl horigin)
  linked e v hv := by
    obtain ⟨visited, h⟩ := taskEvidence_gathered store task e
    exact ((h.messenger v).mp hv).imp_right fun ⟨p, hp, hrequester⟩ =>
      .inr (.inr (.inr ⟨task, htask, p, h.reached p hp, hrequester⟩))

/-- Gathering the evidence of a process run of the call keeps what there is. -/
theorem extends_process {run : Id} (hrun : run ∈ callRuns call) :
    Extends store call (processEvidence store (taskEvidence store) run) := by
  unfold processEvidence
  split
  case h_1 => exact ⟨fun _ => Finset.Subset.refl _, fun _ h => h, fun _ _ hv => .inl hv⟩
  case h_2 row hrow =>
    refine (extends_add row.createdBy).comp (Extends.elim fun task htask => extends_task ?_)
    refine List.mem_append_right _ (List.mem_filterMap.mpr ⟨run, hrun, ?_⟩)
    rw [hrow, Option.bind_some, htask]

/-- Gathering the evidence of the authority of the call keeps what there is. -/
theorem extends_scope {authority : Authority} (hauthority : call.authority = some authority) :
    Extends store call (scopeEvidence store (taskEvidence store) authority) := by
  have hsource {source : Source} (h : authority.source = some source) : source ∈ sources call := by
    rw [sources, hauthority, Option.bind_some, h]
    exact List.mem_singleton_self source
  have hrequester : Extends store call fun e => if authority.messengerOrigin
      then e.addMessenger authority.requesterUserId else e.add authority.requesterUserId := by
    split
    case isTrue horigin =>
      refine .of_adds (adds_addMessenger _) fun v hv => .inl ⟨authority, hauthority, horigin, ?_⟩
      simpa [Evidence.addMessenger, Evidence.origin, Evidence.add] using hv
    case isFalse => exact extends_add _
  unfold scopeEvidence
  cases h : authority.source with
  | none => exact hrequester
  | some source =>
    cases source with
    | task id =>
      exact hrequester.comp (extends_task (List.mem_append_left _
        (List.mem_append_right _ (List.mem_filterMap.mpr ⟨_, hsource h, rfl⟩))))
    | message id => exact hrequester.comp (extends_message (List.mem_filterMap.mpr ⟨_, hsource h, rfl⟩))
    | conversationRound id =>
      exact hrequester.comp
        (extends_round (List.mem_append_right _ (List.mem_filterMap.mpr ⟨_, hsource h, rfl⟩)))
    | processProjection id =>
      exact hrequester.comp
        (extends_process (List.mem_append_right _ (List.mem_filterMap.mpr ⟨_, hsource h, rfl⟩)))

end Extends

/-! ### Grants -/

/-- All the evidence of a call that is granted is of the owner. -/
theorem of_granted {store : Store} {walk : Id → Evidence → Evidence} {call : Call} {u : User}
    (h : enforceWith store walk call = .ok (some u)) :
    (∀ v ∈ (callEvidence store walk call).userIds, v = u) ∧
      ((callEvidence store walk call).messengerOrigin = true →
        (callEvidence store walk call).messengerUserIds = {u}) := by
  unfold enforceWith at h
  split at h
  case isTrue => cases h
  case isFalse =>
    split at h
    case isTrue => cases h
    case isFalse =>
      split at h
      case h_1 => cases h
      case h_2 owner howner =>
        split at h
        case isTrue => cases h
        case isFalse =>
          dsimp only at h
          split at h
          case isTrue => cases h
          case isFalse =>
            split at h
            case isTrue => cases h
            case isFalse hmessenger =>
              rw [not_and, not_not] at hmessenger
              split at h
              case isTrue husers =>
                cases h
                rw [husers]
                exact ⟨fun v hv => Finset.mem_singleton.mp hv, hmessenger⟩
              case isFalse =>
                split at h
                case isTrue => cases h
                case isFalse hempty =>
                  rw [not_not] at hempty
                  split at h
                  case isTrue =>
                    cases h
                    rw [hempty]
                    exact ⟨fun v hv => absurd hv (Finset.notMem_empty v), hmessenger⟩
                  case isFalse => cases h

/-- The evidence of a call goes on from that of its Task. -/
theorem callEvidence_task (store : Store) {call : Call} {start : Id} (h : call.taskId = some start) :
    ∃ e f, Extends store call f ∧ callEvidence store (taskEvidence store) call = f (taskEvidence store start e) ∧
      ∀ v ∈ (callEvidence store (taskEvidence store) call).messengerUserIds, LinkedRequester store call v := by
  have hscope : Extends store call fun e => call.authority.elim e fun authority =>
      scopeEvidence store (taskEvidence store) authority e :=
    .elim fun authority hauthority => extends_scope hauthority
  have hround : Extends store call fun e => call.conversationRoundId.elim e fun id => roundEvidence store id e :=
    .elim fun r hr => extends_round (List.mem_append_left _ (Option.mem_toList.mpr hr))
  have hrun : Extends store call fun e => call.processRunId.elim e fun id =>
      processEvidence store (taskEvidence store) id e :=
    .elim fun run hrun => extends_process (List.mem_append_left _ (Option.mem_toList.mpr hrun))
  have hrest := (hround.comp hrun).comp (extends_add call.currentUserId)
  have htask : start ∈ callTasks store call := List.mem_append_left _ (List.mem_append_left _ (Option.mem_toList.mpr h))
  refine ⟨call.authority.elim {} fun authority =>
    scopeEvidence store (taskEvidence store) authority {}, _, hrest, ?_, ?_⟩
  · rw [callEvidence, h]
    rfl
  · intro v hv
    rw [callEvidence, h] at hv
    exact (((hscope.comp (extends_task htask)).comp hrest).linked {} v hv).resolve_left (Finset.notMem_empty v)

/-! ### Tasks that are read -/

/-- Neither a Task nor its message is deleted. -/
def Visible (store : Store) (id : Id) : Prop := ∀ task, store.tasks id = some task →
  task.deleted = false ∧ ∀ m message, task.messengerMessageId = some m →
  store.messages m = some message → message.deleted = false

section Visible
variable {store : Store} {id : Id}

/-- A Task that is visible is read. -/
theorem tasks_read (h : Visible store id) : store.read.tasks id = store.tasks id := by
  cases htask : store.tasks id with
  | none => simp [Store.read, htask]
  | some task => simp [Store.read, htask, (h task htask).1]

/-- The message of a Task that is read is read too. -/
theorem messageRequester_read (h : Visible store id) {task : Task} (htask : store.tasks id = some task) (v : User) :
    MessageRequester store.read task v ↔ MessageRequester store task v := by
  constructor
  · rintro ⟨m, message, hm, hmessage, hv⟩
    exact ⟨m, message, hm, (Option.filter_eq_some_iff.mp hmessage).1, hv⟩
  · rintro ⟨m, message, hm, hmessage, hv⟩
    refine ⟨m, message, hm, Option.filter_eq_some_iff.mpr ⟨hmessage, ?_⟩, hv⟩
    rw [(h task htask).2 m message hm hmessage]
    rfl

theorem recorded_read (h : Visible store id) (v : User) : Recorded store.read id v ↔ Recorded store id v := by
  rw [Recorded, Recorded, tasks_read h]
  refine exists_congr fun task => and_congr_right fun htask => ?_
  rw [messageRequester_read h htask]
  rfl

theorem fromMessenger_read (h : Visible store id) : FromMessenger store.read id ↔ FromMessenger store id := by
  rw [FromMessenger, FromMessenger, tasks_read h]
  rfl

theorem links_read (h : Visible store id) : links store.read id = links store id := by
  rw [links, links, tasks_read h]

/-- Where all the Tasks that can be reached are read, the same are reached. -/
theorem reach_read {start : Id} (h : ∀ id, Reach (links store) start id → Visible store id) :
    Reach (links store.read) start id ↔ Reach (links store) start id := by
  constructor
  · intro hreach
    induction hreach with
    | refl => exact .refl
    | tail _ hlink ih => exact ih.tail (links_read (h _ ih) ▸ hlink)
  · intro hreach
    induction hreach with
    | refl => exact .refl
    | tail hfirst hlink ih => exact ih.tail ((links_read (h _ hfirst)).symm ▸ hlink)

end Visible

/-- A grant of a personal subscription to a call with a Task is of the one that everybody asked for it;
traversals end, and it does not matter in which order they visit the Tasks. -/
structure Attributed (store : Store) (start : Id) : Prop where
  requesters : ∀ call u, call.taskId = some start → enforceSubscriptionAccess store call = .ok (some u) →
    ∀ id, Reach (links store) start id → ∀ v, Recorded store id v → v = u
  messenger : ∀ call u, call.taskId = some start → enforceSubscriptionAccess store call = .ok (some u) →
    ∀ id, Reach (links store) start id → FromMessenger store id → LinkedRequester store.read call u
  ends : ∀ e turns t, Turns store.read start e turns t → turns ≤ 301
  order : ∀ call walk, call.taskId = some start → (∀ e, Traverses store.read start e (walk start e)) →
    (∀ other, other ≠ start → walk other = taskEvidence store.read other) →
    enforceWith store.read walk call = enforceSubscriptionAccess store call

/-- Where all is visited and read, grants are attributed. -/
theorem attributed_of_atMost {store : Store} {start : Id} (hbound : AtMost (links store) start 100)
    (hvisible : ∀ id, Reach (links store) start id → Visible store id) : Attributed store start := by
  have hread : AtMost (links store.read) start 100 := by
    obtain ⟨places, hlength, hplaces⟩ := hbound
    exact ⟨places, hlength, fun p hp => hplaces p ((reach_read hvisible).mp hp)⟩
  refine ⟨fun call u hcall hgranted id hreach v hrecorded => ?_, fun call u hcall hgranted id hreach hmessenger => ?_,
    fun e turns t h => turns_bounded h, fun call walk hcall hwalk hothers => ?_⟩
  · obtain ⟨e, f, hf, heq, -⟩ := callEvidence_task store.read hcall
    obtain ⟨visited, hgathered⟩ := taskEvidence_gathered store.read start e
    refine (of_granted hgranted).1 v ?_
    rw [heq]
    refine hf.users _ ((hgathered.users v).mpr (.inr ⟨id, ?_, (recorded_read (hvisible id hreach) v).mpr hrecorded⟩))
    exact hgathered.all hread id ((reach_read hvisible).mpr hreach)
  · obtain ⟨e, f, hf, heq, hlinked⟩ := callEvidence_task store.read hcall
    obtain ⟨visited, hgathered⟩ := taskEvidence_gathered store.read start e
    have horigin : (callEvidence store.read (taskEvidence store.read) call).messengerOrigin = true := by
      rw [heq]
      refine hf.origin _ (hgathered.origin.mpr
        (.inr ⟨id, ?_, (fromMessenger_read (hvisible id hreach)).mpr hmessenger⟩))
      exact hgathered.all hread id ((reach_read hvisible).mpr hreach)
    refine hlinked u ?_
    rw [(of_granted hgranted).2 horigin]
    exact Finset.mem_singleton_self u
  · have hsame : walk = taskEvidence store.read := by
      funext id e
      by_cases hid : id = start
      · subst hid
        obtain ⟨visited, hgathered⟩ := (hwalk e).gathered
        obtain ⟨visited', hgathered'⟩ := taskEvidence_gathered store.read id e
        exact hgathered.unique hread hgathered'
      · rw [hothers id hid]
    rw [hsame]
    rfl

/-! ### Tasks that are not visited, or not read -/

/-- What a Task is linked to, and what is deleted of it. -/
structure Node where
  parentId : Option Id
  sourceTaskId : Option Id
  deleted : Bool
  /-- Whether its message is deleted. -/
  messageDeleted : Bool

/-- The Tasks that there are, with their parents and sources, which are foreign keys. -/
structure Graph where
  tasks : Id → Option Node
  foreign : ∀ id node, tasks id = some node → ∀ other, node.parentId = some other ∨
    node.sourceTaskId = some other → (tasks other).isSome = true

def graphLinks (graph : Graph) (id : Id) : List Id :=
    (graph.tasks id).elim [] fun node => node.sourceTaskId.toList ++ node.parentId.toList

/-- The links of the Tasks that are read. -/
def readLinks (graph : Graph) (id : Id) : List Id :=
    if (graph.tasks id).any (·.deleted) then [] else graphLinks graph id

/-- Neither a Task nor its message is deleted. -/
def Graph.Visible (graph : Graph) (id : Id) : Prop :=
    ∀ node, graph.tasks id = some node → node.deleted = false ∧ node.messageDeleted = false

def nodeOf (store : Store) (task : Task) : Node :=
  ⟨task.parentId, task.sourceTaskId, task.deleted, (task.messengerMessageId.bind store.messages).any (·.deleted)⟩

/-- The Tasks of a store are linked, and deleted, so. -/
def Over (graph : Graph) (store : Store) : Prop := ∀ id, (store.tasks id).map (nodeOf store) = graph.tasks id

theorem links_over {graph : Graph} {store : Store} (h : Over graph store) : links store = graphLinks graph := by
  funext id
  rw [links, graphLinks, ← h id]
  cases store.tasks id <;> rfl

theorem links_read_over {graph : Graph} {store : Store} (h : Over graph store) :
    links store.read = readLinks graph := by
  funext id
  rw [readLinks, ← links_over h, ← h id]
  cases htask : store.tasks id with
  | none => simp [links, Store.read, htask]
  | some task =>
    cases hdeleted : task.deleted with
    | false => simp [links, Store.read, htask, nodeOf, hdeleted, Option.filter]
    | true => simp [links, Store.read, htask, nodeOf, hdeleted, Option.filter]

/-- What is deleted of a Task is told by the graph. -/
theorem visible_over {graph : Graph} {store : Store} (h : Over graph store) (id : Id) :
    Visible store id ↔ graph.Visible id := by
  rw [Visible, Graph.Visible, ← h id]
  cases htask : store.tasks id with
  | none => simp
  | some task =>
    cases hm : task.messengerMessageId with
    | none => simp [nodeOf, hm]
    | some m =>
      have hmessage : (∀ m' message, m = m' → store.messages m' = some message → message.deleted = false) ↔
          (store.messages m).any (·.deleted) = false := by
        cases h : store.messages m with
        | none => exact ⟨fun _ => rfl, fun _ m' message hm' hrow => by rw [← hm', h] at hrow; cases hrow⟩
        | some row =>
          refine ⟨fun hall => hall m row rfl h, fun hrow m' message hm' hmessage => ?_⟩
          rw [← hm', h] at hmessage
          exact Option.some.inj hmessage ▸ hrow
      simpa [nodeOf, hm] using fun _ => hmessage

/-- One Task is of another user than the others, by its message where that is deleted. -/
def withStranger (graph : Graph) (stranger : Id) : Store where
  tasks id := (graph.tasks id).map fun node => {
    requesterUserId := if id = stranger ∧ node.messageDeleted = false then some 1 else some 0
    createdBy := none
    messengerConnectionId := none
    messengerMessageId := if node.messageDeleted then some id else none
    parentId := node.parentId
    sourceTaskId := node.sourceTaskId
    deleted := node.deleted}
  messages id := some ⟨"inbound", if id = stranger then some 1 else some 0, true, fun h => absurd rfl h⟩
  rounds _ := none
  taskRounds _ := none
  runs _ := none
  users := [(0, true)]

theorem over_withStranger (graph : Graph) (stranger : Id) : Over graph (withStranger graph stranger) := fun id => by
  cases h : graph.tasks id with
  | none => simp [withStranger, h]
  | some node =>
    obtain ⟨parent, source, deleted, messageDeleted⟩ := node
    cases messageDeleted <;> simp [withStranger, h, nodeOf]

/-- What is visited does not depend on what is recorded. -/
theorem walk_repeated (store : Store) (fuel : Nat) (t : Traversal) :
    (repeated (turnOf store) fuel t).walk = repeated (turn (links store) 100) fuel t.walk := by
  induction fuel generalizing t with
  | zero => rfl
  | succ fuel ih =>
    rw [repeated, repeated]
    cases hturn : turnOf store t with
    | none => rw [(turnOf_eq_none t).mp hturn]
    | some t' => rw [(turnOf_cases hturn).1, ih]

/-- Where more than one Task can be reached, each of them is there. -/
theorem tasks_of_reach {graph : Graph} {start id : Id} (h : ¬AtMost (graphLinks graph) start 100)
    (hid : Reach (graphLinks graph) start id) :
    (graph.tasks id).isSome = true := by
  have hlink {p q : Id} (hq : q ∈ graphLinks graph p) : (graph.tasks q).isSome = true := by
    unfold graphLinks at hq
    cases hp : graph.tasks p with
    | none =>
      rw [hp] at hq
      cases hq
    | some task =>
      rw [hp, Option.elim_some, List.mem_append, Option.mem_toList, Option.mem_toList] at hq
      exact graph.foreign p task hp q hq.symm
  cases hid with
  | tail _ hq => exact hlink hq
  | refl =>
    by_contra hnone
    refine h ⟨[start], (by decide : 1 ≤ 100), fun p hp => ?_⟩
    obtain rfl | ⟨q, hq, -⟩ := hp.cases_head
    · exact List.mem_singleton_self _
    · rw [graphLinks, Option.not_isSome_iff_eq_none.mp hnone] at hq
      cases hq

/-- The stranger's Task is recorded as such. -/
theorem recorded_withStranger {graph : Graph} {stranger : Id} (h : (graph.tasks stranger).isSome = true) :
    Recorded (withStranger graph stranger) stranger 1 := by
  obtain ⟨node, hnode⟩ := Option.isSome_iff_exists.mp h
  cases hdeleted : node.messageDeleted with
  | false => simp [Recorded, withStranger, hnode, hdeleted]
  | true => simp [Recorded, withStranger, hnode, hdeleted, MessageRequester]

section Read
variable {graph : Graph} {stranger id : Id}

/-- What is read of the Tasks. -/
theorem read_withStranger {task : Task} (h : (withStranger graph stranger).read.tasks id =
    some task) : ∃ node, graph.tasks id = some node ∧
    node.deleted = false ∧ task.requesterUserId =
      (if id = stranger ∧ node.messageDeleted = false then some 1 else some 0) ∧
    task.messengerConnectionId = none ∧ (task.messengerMessageId ≠ none ↔ node.messageDeleted = true) := by
  obtain ⟨hrow, hkept⟩ := Option.filter_eq_some_iff.mp h
  obtain ⟨node, hnode, rfl⟩ := Option.map_eq_some_iff.mp hrow
  exact ⟨node, hnode, by simpa using hkept, rfl, rfl, by simp⟩

/-- No message is read. -/
theorem not_messageRequester_withStranger (task : Task) (v : User) :
    ¬MessageRequester (withStranger graph stranger).read task v := by
  rintro ⟨m, message, -, hmessage, -⟩
  have hnone : (withStranger graph stranger).read.messages m = none := rfl
  rw [hnone] at hmessage
  cases hmessage

/-- What is read of the others is of the first user. -/
theorem recorded_read_withStranger {v : User} (h : Recorded
    (withStranger graph stranger).read id v) : v = 0 ∨ (id = stranger ∧ graph.Visible id) := by
  obtain ⟨task, htask, hrecorded⟩ := h
  obtain ⟨node, hnode, hkept, hrequester, -, -⟩ := read_withStranger htask
  obtain hv | ⟨hnobody, -⟩ | hmessage | ⟨r, hr, -⟩ := hrecorded
  · rw [hrequester] at hv
    split at hv
    case isTrue hstranger =>
      refine .inr ⟨hstranger.1, fun other hother => ?_⟩
      obtain rfl := Option.some.inj (hnode.symm.trans hother)
      exact ⟨hkept, hstranger.2⟩
    case isFalse => exact .inl (Option.some.inj hv).symm
  · rw [hrequester] at hnobody
    split at hnobody <;> cases hnobody
  · exact absurd hmessage (not_messageRequester_withStranger task v)
  · cases hr

/-- The first user is linked to every Task that is read and came from a messenger, and nobody else is. -/
theorem messenger_withStranger (h : FromMessenger (withStranger graph stranger).read id) :
    MessengerRequester (withStranger graph stranger).read id 0 := by
  obtain ⟨task, htask, hmessenger⟩ := h
  obtain ⟨node, hnode, -, hrequester, hconnection, hmessage⟩ := read_withStranger htask
  obtain hconnected | hmessenger | hround := hmessenger
  · exact absurd hconnection hconnected
  · refine ⟨task, htask, .inl ⟨.inr hmessenger, ?_⟩⟩
    rw [hrequester, if_neg fun hstranger => ?_]
    rw [hmessage.mp hmessenger] at hstranger
    cases hstranger.2
  · exact absurd rfl hround

theorem messengerRequester_withStranger {v : User}
    (h : MessengerRequester (withStranger graph stranger).read id v) : v = 0 := by
  obtain ⟨task, htask, ⟨hmessenger, hv⟩ | hmessage | ⟨r, hr, -⟩⟩ := h
  · obtain ⟨node, hnode, -, hrequester, hconnection, hmessage⟩ := read_withStranger htask
    have hdeleted := hmessage.mp (hmessenger.resolve_left (not_not_intro hconnection))
    rw [hrequester, if_neg fun hstranger => by rw [hdeleted] at hstranger; cases hstranger.2] at hv
    exact (Option.some.inj hv).symm
  · exact absurd hmessage (not_messageRequester_withStranger task v)
  · cases hr

end Read

/-- A call with a Task, for the first user. -/
def callOf (start : Id) : Call := ⟨⟨some "openai-codex", some 0⟩, true, none, some start, none, none, none⟩

/-- Evidence of nobody else is enough for a grant, where there are no other users. -/
theorem granted_callOf {store : Store} {start : Id} (husers : store.users = [(0, true)])
    (horigin : (taskEvidence store.read start {}).messengerOrigin = true →
      (taskEvidence store.read start {}).messengerUserIds = {0})
    (honly : ∀ v ∈ (taskEvidence store.read start {}).userIds, v = 0) :
        enforceSubscriptionAccess store (callOf start) = .ok (some 0) := by
  have hevidence : callEvidence store.read (taskEvidence store.read) (callOf start) =
      taskEvidence store.read start {} := by
    show (taskEvidence store.read start {}).add none = _
    simp [Evidence.add]
  have hactive : activeUsers store.read = [0] := by
    rw [activeUsers, show store.read.users = [(0, true)] from husers]
    rfl
  have hlookup : store.read.users.lookup 0 = some true := by
    rw [show store.read.users = [(0, true)] from husers]
    rfl
  rw [enforceSubscriptionAccess, enforceWith, if_neg (fun hother => hother rfl), if_neg (fun hother => hother rfl)]
  show (if store.read.users.lookup 0 ≠ some true then _ else _) = _
  rw [if_neg (not_not_intro hlookup), hevidence]
  dsimp only
  rw [if_neg (fun h => Finset.singleton_ne_empty 0 ((horigin h.1).symm.trans h.2)), if_neg fun h => h.2 (horigin h.1)]
  by_cases hall : (taskEvidence store.read start {}).userIds = {0}
  · rw [if_pos hall]
  · have hempty : (taskEvidence store.read start {}).userIds = ∅ := by
      refine Finset.eq_empty_of_forall_notMem fun v hv => hall ?_
      obtain rfl := honly v hv
      exact Finset.eq_singleton_iff_unique_mem.mpr ⟨hv, honly⟩
    rw [if_neg hall, if_neg (not_not_intro hempty), if_pos hactive]

/-- A stranger's Task that is not visited, or of which something is not read, does not count. -/
theorem granted_withStranger {graph : Graph} {start stranger : Id}
    (hmissed : stranger ∈ (repeated (turn (readLinks graph) 100) 301 ⟨[start], []⟩).visited → ¬graph.Visible stranger) :
    enforceSubscriptionAccess (withStranger graph stranger) (callOf start) = .ok (some 0) := by
  obtain ⟨turns, hturns, hdone⟩ := traversal_done (withStranger graph stranger).read start {}
  have hgathered := hturns.gathered hdone
  rw [walk_repeated, links_read_over (over_withStranger graph stranger)] at hgathered
  refine granted_callOf rfl (fun horigin => ?_) fun v hv => ?_
  · obtain hinitial | ⟨id, hid, hmessenger⟩ := hgathered.origin.mp horigin
    · cases hinitial
    · refine Finset.eq_singleton_iff_unique_mem.mpr ⟨(hgathered.messenger 0).mpr
        (.inr ⟨id, hid, messenger_withStranger hmessenger⟩), fun v hv => ?_⟩
      obtain hinitial | ⟨other, -, hrequester⟩ := (hgathered.messenger v).mp hv
      · exact absurd hinitial (Finset.notMem_empty v)
      · exact messengerRequester_withStranger hrequester
  · obtain hinitial | ⟨id, hid, hrecorded⟩ := (hgathered.users v).mp hv
    · exact absurd hinitial (Finset.notMem_empty v)
    · obtain hv | ⟨rfl, hvisible⟩ := recorded_read_withStranger hrecorded
      · exact hv
      · exact absurd hvisible (hmissed hid)

/-- A stranger's work that is missed uses the subscription. -/
theorem not_attributed_of_missed {graph : Graph} {start stranger : Id}
    (hreach : Reach (graphLinks graph) start stranger)
    (hthere : (graph.tasks stranger).isSome = true)
    (hmissed : stranger ∈ (repeated (turn (readLinks graph) 100) 301 ⟨[start], []⟩).visited → ¬graph.Visible stranger) :
    ∃ store, Over graph store ∧ ¬Attributed store start := by
  refine ⟨withStranger graph stranger, over_withStranger graph stranger, fun hattributed => ?_⟩
  rw [← links_over (over_withStranger graph stranger)] at hreach
  exact absurd (hattributed.requesters _ 0 rfl (granted_withStranger hmissed) stranger hreach 1
    (recorded_withStranger hthere)) (by decide)

/-- Of more than a hundred Tasks that are all read, one is not visited. -/
theorem not_attributed {graph : Graph} {start : Id} (h : ¬AtMost (graphLinks graph) start 100)
    (hvisible : ∀ id, Reach (graphLinks graph) start id → graph.Visible id) :
    ∃ store, Over graph store ∧ ¬Attributed store start := by
  have hover := over_withStranger graph start
  rw [← links_over hover] at h
  have hsame (id : Id) : Reach (readLinks graph) start id ↔ Reach (graphLinks graph) start id := by
    rw [← links_read_over hover, ← links_over hover]
    refine reach_read fun id hid => (visible_over hover id).mpr (hvisible id ?_)
    rw [← links_over hover]
    exact hid
  have hmany : ¬AtMost (readLinks graph) start 100 := by
    rintro ⟨places, hlength, hplaces⟩
    refine h ⟨places, hlength, fun p hp => hplaces p ((hsame p).mpr ?_)⟩
    rw [← links_over hover]
    exact hp
  obtain ⟨turns, hturns, hdone⟩ := traversal_done (withStranger graph start).read start {}
  have hinv := hturns.added.inv
  rw [walk_repeated, links_read_over hover] at hinv
  obtain ⟨stranger, hreach, hmissed⟩ := hinv.missed hmany
  rw [hsame] at hreach
  rw [links_over hover] at h
  exact not_attributed_of_missed hreach (tasks_of_reach h hreach) fun hvisited => absurd hvisited hmissed

/-- For a graph of Tasks: whoever they are of, grants are attributed exactly where no more than a hundred of
them can be reached, and none of these is deleted, nor its message. -/
theorem attributed_iff (graph : Graph) (start : Id) :
    (∀ store, Over graph store → Attributed store start) ↔
      AtMost (graphLinks graph) start 100 ∧ ∀ id, Reach (graphLinks graph) start id → graph.Visible id := by
  constructor
  · intro h
    have hvisible (id : Id) (hreach : Reach (graphLinks graph) start id) : graph.Visible id := by
      by_contra hhidden
      obtain ⟨node, hnode⟩ : ∃ node, graph.tasks id = some node := by
        by_contra hnone
        exact hhidden fun node hnode => absurd ⟨node, hnode⟩ hnone
      obtain ⟨store, hover, hnot⟩ := not_attributed_of_missed hreach
        (Option.isSome_iff_exists.mpr ⟨node, hnode⟩) fun _ => hhidden
      exact hnot (h store hover)
    refine ⟨?_, hvisible⟩
    by_contra hmany
    obtain ⟨store, hover, hnot⟩ := not_attributed hmany hvisible
    exact hnot (h store hover)
  · rintro ⟨hbound, hvisible⟩ store hover
    rw [← links_over hover] at hbound hvisible
    exact attributed_of_atMost hbound fun id hreach => (visible_over hover id).mpr (hvisible id hreach)

/-- A hundred and one Tasks, each the child of the next. -/
def chain : Graph where
  tasks id := if id < 100 then some ⟨some (id + 1), none, false, false⟩
    else if id = 100 then some ⟨none, none, false, false⟩ else none
  foreign id task h other hother := by
    split at h
    case isTrue hid =>
      cases h
      obtain hother | hother := hother
      · cases hother
        split
        case isTrue => rfl
        case isFalse hlast =>
          rw [if_pos (Nat.le_antisymm hid (Nat.le_of_not_lt hlast))]
          rfl
      · cases hother
    case isFalse =>
      split at h
      · cases h
        obtain hother | hother := hother <;> cases hother
      · cases h

/-- The last ancestor is a stranger's. -/
theorem stranger_granted : enforceSubscriptionAccess (withStranger chain 100) (callOf 0) = .ok (some 0) ∧
    Reach (links (withStranger chain 100)) 0 100 ∧ Recorded (withStranger chain 100) 100 1 := by
  refine ⟨granted_withStranger fun hvisited => absurd hvisited (by decide +kernel), ?_, recorded_withStranger rfl⟩
  rw [links_over (over_withStranger chain 100)]
  have hreach : ∀ id ≤ 100, Reach (graphLinks chain) 0 id := by
    intro id hid
    induction id with
    | zero => exact .refl
    | succ id ih =>
      refine (ih (Nat.le_of_succ_le hid)).tail ?_
      have htask : chain.tasks id = some ⟨some (id + 1), none, false, false⟩ := if_pos hid
      rw [graphLinks, htask]
      exact List.mem_singleton_self _
  exact hreach 100 (Nat.le_refl _)

end Galaris.Llm.Subscription
