import Galaris.Base.Loop
import Galaris.Base.Transition
import Mathlib.Logic.Function.Basic
import Mathlib.Algebra.Order.Ring.Int

/-! Admission of physical calls to their providers (`app/llm/provider_scheduler.py`).

Callers wait on tickets; a drain, which does not yield, grants permits to the tickets of each
provider until none of them is eligible. The events are what runs between two yields: calls to
`configure`, `enqueue`, `cancel` and `release`, and the drain that they schedule. An `acquire` is an
enqueue whose caller awaits the future; that it is cancelled, is a cancel of its ticket. -/
namespace Galaris.Llm.Scheduler

open Transition Loop

/-- Providers are numbered; tickets and permits are objects. -/
abbrev Id := Nat

/-- `AdmissionClass`. -/
inductive Priority
  | voice | text | background
deriving DecidableEq, Repr

def Priority.value : Priority → Nat
  | .voice => 0
  | .text => 1
  | .background => 2

structure Permit where
  id : Id
  provider : Id
  priority : Priority
  owner : Option String
deriving DecidableEq, Repr

structure Ticket where
  id : Id
  provider : Id
  priority : Priority
  owner : Option String
  queuedAt : Nat
deriving DecidableEq, Repr

inductive Future
  | pending | cancelled | done (permit : Permit)
deriving DecidableEq, Repr

/-- `_ProviderQueue`. -/
structure Queue where
  provider : Id
  limit : Nat
  waiting : List Ticket
  active : List Permit
deriving DecidableEq, Repr

namespace Queue

def count (queue : Queue) (priority : Priority) : Nat := queue.active.countP fun permit => permit.priority = priority

/-- `_eligible`; a limit of 0 is none. -/
def eligible (queue : Queue) (priority : Priority) : Bool :=
  if queue.limit = 0 then true
  else if queue.limit ≤ queue.active.length then false
  else if queue.limit = 1 then true
  else
    let background := queue.count .background
    if priority = .background then background < max 1 (queue.limit - 2)
    else if queue.limit = 2 then true
    else queue.count priority + background < queue.limit - 1

/-- The permits that an owner has; the drain keeps this count, which nobody else can change. -/
def concurrent (queue : Queue) (owner : Option String) : Nat :=
  match owner with
  | none | some "" => 0
  | some owner => queue.active.countP fun permit => permit.owner = some owner

end Queue

/-- The clock of the loop counts nanoseconds. -/
def agingPeriod : Nat := 30 * 10 ^ 9

/-- The key by which the next ticket is chosen; a ticket gains a class with every period it waits. -/
def rank (now : Nat) (queue : Queue) (ticket : Ticket) : Nat × Nat × Nat :=
  (ticket.priority.value - (now - ticket.queuedAt) / agingPeriod, queue.concurrent ticket.owner, ticket.queuedAt)

/-- Tuples are compared in order. -/
def before (a b : Nat × Nat × Nat) : Bool :=
  a.1 < b.1 || (a.1 == b.1 && (a.2.1 < b.2.1 || (a.2.1 == b.2.1 && a.2.2 < b.2.2)))

/-- `min`: the first of the tickets with the least key. -/
def first (key : Ticket → Nat × Nat × Nat) : List Ticket → Option Ticket
  | [] => none
  | ticket :: rest => some (rest.foldl (fun best other => if before (key other) (key best) then other else best) ticket)

/-- The ticket that the drain takes next. -/
def chosen (now : Nat) (queue : Queue) : Option Ticket :=
  first (rank now queue) (queue.waiting.filter fun ticket => queue.eligible ticket.priority)

/-- The scheduler and the futures of its tickets; the next object, the tickets that there are, those that
were cancelled, the permits that were granted to tickets, and those that were released. -/
structure State where
  queues : List Queue
  scheduled : Bool
  futures : Id → Future
  next : Id
  tickets : List Ticket
  cancelled : List Id
  granted : List (Id × Permit)
  released : List Id
  clock : Nat

namespace State

def queue? (s : State) (provider : Id) : Option Queue := s.queues.find? (·.provider = provider)

def put (s : State) (queue : Queue) : State :=
  {s with queues := s.queues.map fun other => if other.provider = queue.provider then queue else other}

/-- `_schedule`. -/
def schedule (s : State) : State :=
  if s.queues.any fun queue => !queue.waiting.isEmpty then {s with scheduled := true} else s

/-- `configure`; a negative limit is refused. -/
def configure (s : State) (provider : Id) (limit : Int) : Option State :=
  if limit < 0 then none
  else
    match s.queue? provider with
    | none => some (State.schedule {s with queues := s.queues ++ [⟨provider, limit.toNat, [], []⟩]})
    | some queue => some (s.put {queue with limit := limit.toNat}).schedule

/-- The provider is configured where it is not known. -/
def known (s : State) (provider : Id) (limit : Int) : Option State :=
  if (s.queue? provider).isNone then s.configure provider limit else some s

/-- `enqueue`. -/
def enqueue (s : State) (provider : Id) (limit : Int) (priority : Priority) (owner : Option String) : Option State :=
  (s.known provider limit).bind fun s => (s.queue? provider).map fun queue =>
    let ticket : Ticket := ⟨s.next, provider, priority, owner, s.clock⟩
    State.schedule {s.put {queue with waiting := queue.waiting ++ [ticket]} with
      futures := Function.update s.futures ticket.id .pending, tickets := s.tickets ++ [ticket], next := s.next + 1}

/-- `release` of the permit; the second time it does nothing. -/
def release (s : State) (permit : Permit) : State :=
  if permit.id ∈ s.released then s
  else
    let s := {s with released := s.released ++ [permit.id]}
    match s.queue? permit.provider with
    | none => s
    | some queue => (s.put {queue with active := queue.active.erase permit}).schedule

/-- The future of the ticket is cancelled; where it is done its permit is released. -/
def closeFuture (s : State) (ticket : Ticket) : State :=
  match s.futures ticket.id with
  | .done permit => s.release permit
  | _ => {s with futures := Function.update s.futures ticket.id .cancelled}

/-- `cancel`. -/
def cancel (s : State) (ticket : Ticket) : Option State :=
  (s.queue? ticket.provider).map fun queue =>
    let s := (s.put {queue with waiting := queue.waiting.erase ticket}).closeFuture ticket
    State.schedule {s with cancelled := s.cancelled ++ [ticket.id]}

/-- One turn of the drain of a provider. -/
def grantNext (provider : Id) (s : State) : Option State := do
  let queue ← s.queue? provider
  let ticket ← chosen s.clock queue
  let queue := {queue with waiting := queue.waiting.erase ticket}
  if s.futures ticket.id = .cancelled then return s.put queue
  else
    let permit : Permit := ⟨s.next, provider, ticket.priority, ticket.owner⟩
    return {s.put {queue with active := queue.active ++ [permit]} with
      futures := Function.update s.futures ticket.id (.done permit)
      granted := s.granted ++ [(ticket.id, permit)]
      next := s.next + 1}

/-- Each turn takes a ticket from those that wait. -/
def turns (s : State) (provider : Id) : Nat := (s.queue? provider).elim 0 fun queue => queue.waiting.length

def drainProvider (s : State) (provider : Id) : State := repeated (grantNext provider) (s.turns provider) s

def drainEach (s : State) : List Id → State
  | [] => s
  | provider :: rest => drainEach (s.drainProvider provider) rest

/-- `_drain`, of the providers in their order. -/
def drain (s : State) : State := drainEach {s with scheduled := false} (s.queues.map (·.provider))

end State

inductive Event
  | configure (provider : Id) (limit : Int)
  | enqueue (provider : Id) (limit : Int) (priority : Priority) (owner : Option String)
  | cancel (ticket : Ticket)
  | abandon (ticket : Ticket)
  | release (permit : Permit)
  | drain
  | tick (nanoseconds : Nat)
deriving DecidableEq, Repr

/-- A ticket is abandoned where its holder cancels the future itself. -/
def apply (s : State) : Event → Option State
  | .configure provider limit => s.configure provider limit
  | .enqueue provider limit priority owner => s.enqueue provider limit priority owner
  | .cancel ticket => if ticket ∈ s.tickets then s.cancel ticket else none
  | .abandon ticket =>
    if ticket ∈ s.tickets ∧ s.futures ticket.id = .pending then
      some {s with futures := Function.update s.futures ticket.id .cancelled}
    else none
  | .release permit => if permit ∈ s.granted.map (·.2) then some (s.release permit) else none
  | .drain => if s.scheduled then some s.drain else none
  | .tick nanoseconds => some {s with clock := s.clock + nanoseconds}

def start : State := ⟨[], false, fun _ => .pending, 0, [], [], [], [], 0⟩

end Galaris.Llm.Scheduler
