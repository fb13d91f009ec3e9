import Galaris.Base.Transition
import Mathlib.Data.List.Count

/-! The barrier of the tool calls of one run (`_ToolCallScheduler`, `harness/checkpoint.py`).

A call runs on from one suspension to the next; the sections in between hold the lock of the condition,
so they run one at a time. Each section is an event here. A wait on the condition is checked at once, and
again after a notification. The counters count phases (`Inv`), and a call that waits without having been
notified waits for something that is still so: no notification is missed. A body fails with whatever it
raises; a call is not cancelled while it waits. -/
namespace Galaris.Harness.Barrier

open Transition

/-- `ToolConcurrencyPolicy`. -/
inductive Policy
  | safe
  | exclusive
deriving DecidableEq, Repr

/-- A wait on the condition: the predicate is to be checked, or a notification is to come. -/
inductive Wait
  | check
  | blocked
deriving DecidableEq, Repr

/-- Where a call is suspended. -/
inductive Phase
  /-- Before the semaphore, or before the lock of an exclusive call. -/
  | arrived
  | slot (wait : Wait)
  | running
  /-- The body has returned or raised. -/
  | leaving
  | result (wait : Wait)
  | turn
  | released
deriving DecidableEq, Repr

/-- A call; its ticket is its place. `behind` are the exclusive calls that were waiting when it came. -/
structure Call where
  policy : Policy
  phase : Phase
  failed : Bool
  behind : List Nat
deriving DecidableEq, Repr

structure State where
  safeSlots : Nat
  activeSafe : Nat
  exclusiveActive : Bool
  exclusiveWaiting : Nat
  nextTicket : Nat
  nextResult : Nat
  finished : List Nat
  calls : List Call
  /-- The tickets of the results, as they were released. -/
  results : List Nat
deriving DecidableEq, Repr

/-- `__init__`. -/
def start (maxParallel : Nat) : State := ⟨max 1 maxParallel, 0, false, 0, 0, 0, [], [], []⟩

namespace Call

/-- `notify_all`. -/
def notify (call : Call) : Call :=
  match call.phase with
  | .slot _ => {call with phase := .slot .check}
  | .result _ => {call with phase := .result .check}
  | _ => call

def waitsExclusive (call : Call) : Bool :=
  match call.policy, call.phase with
  | .exclusive, .slot _ => true
  | _, _ => false

end Call

namespace State

def put (s : State) (ticket : Nat) (call : Call) : State := {s with calls := s.calls.set ticket call}

def notifyAll (s : State) : State := {s with calls := s.calls.map Call.notify}

/-- The predicate of the wait for a slot. -/
def admits (s : State) : Policy → Bool
  | .safe => !s.exclusiveActive && s.exclusiveWaiting = 0
  | .exclusive => !s.exclusiveActive && s.activeSafe = 0

/-- The check of the wait for a slot, and what follows it under the lock. -/
def enter (s : State) (ticket : Nat) (call : Call) : State :=
  if s.admits call.policy then
    match call.policy with
    | .safe => {s with activeSafe := s.activeSafe + 1}.put ticket {call with phase := .running}
    | .exclusive =>
      ({s with exclusiveActive := true, exclusiveWaiting := s.exclusiveWaiting - 1}.put ticket
        {call with phase := .running}).notifyAll
  else s.put ticket {call with phase := .slot .blocked}

/-- The `finally` of a slot. -/
def leave (s : State) (ticket : Nat) (call : Call) : State :=
  match call.policy with
  | .safe =>
    {({s with activeSafe := s.activeSafe - 1}.put ticket {call with
      phase := .result .check}).notifyAll with safeSlots := s.safeSlots + 1}
  | .exclusive => ({s with exclusiveActive := false}.put ticket {call with phase := .result .check}).notifyAll

/-- The loop of `finish_result`. -/
def release (next : Nat) (finished : List Nat) : Nat × List Nat :=
  if next ∈ finished then release (next + 1) (finished.erase next) else (next, finished)
termination_by finished.length
decreasing_by
  rename_i h
  have hpos := List.length_pos_of_mem h
  rw [List.length_erase_of_mem h]
  omega

/-- `finish_result`. -/
def finishResult (s : State) (ticket : Nat) (call : Call) : State :=
  let (nextResult, finished) := release s.nextResult (ticket :: s.finished)
  ({s with nextResult, finished, results := s.results ++ [ticket]}.put ticket {call with phase := .released}).notifyAll

end State

/-- The sections between suspensions. -/
inductive Event
  /-- `call_tool` takes its ticket. -/
  | call (policy : Policy)
  /-- A safe call takes a slot of the semaphore, or an exclusive call is counted. -/
  | request (ticket : Nat)
  /-- A call that may check its wait for a slot. -/
  | enter (ticket : Nat)
  /-- The body returns or raises. -/
  | ends (ticket : Nat) (failed : Bool)
  | leave (ticket : Nat)
  /-- `wait_result_turn`. -/
  | await (ticket : Nat)
  | finish (ticket : Nat)
deriving DecidableEq, Repr

def exclusives (s : State) : List Nat :=
    s.calls.zipIdx.filterMap fun (call, ticket) => if call.waitsExclusive then some ticket else none

def newcomer (s : State) (policy : Policy) : Call := ⟨policy, .arrived, false, exclusives s⟩

def apply (s : State) : Event → Option State
  | .call policy => some {s with nextTicket := s.nextTicket + 1, calls := s.calls ++ [newcomer s policy]}
  | .request ticket =>
    match s.calls[ticket]? with
    | some call =>
      match call.policy, call.phase with
      | .safe, .arrived =>
        if s.safeSlots = 0 then none else some ({s with safeSlots := s.safeSlots - 1}.put ticket
          {call with phase := .slot .check})
      | .exclusive, .arrived => some ({s with exclusiveWaiting := s.exclusiveWaiting + 1}.enter ticket call)
      | _, _ => none
    | none => none
  | .enter ticket =>
    match s.calls[ticket]? with
    | some call => if call.phase = .slot .check then some (s.enter ticket call) else none
    | none => none
  | .ends ticket failed =>
    match s.calls[ticket]? with
    | some call => if call.phase = .running then some (s.put ticket {call with phase := .leaving, failed}) else none
    | none => none
  | .leave ticket =>
    match s.calls[ticket]? with
    | some call => if call.phase = .leaving then some (s.leave ticket call) else none
    | none => none
  | .await ticket =>
    match s.calls[ticket]? with
    | some call =>
      if call.phase = .result .check then
        some (s.put ticket {call with phase := if ticket = s.nextResult then .turn else .result .blocked})
      else none
    | none => none
  | .finish ticket =>
    match s.calls[ticket]? with
    | some call => if call.phase = .turn then some (s.finishResult ticket call) else none
    | none => none

abbrev Runs : State → Event → State → Prop := Executes apply

/-! ### What the counters count -/

namespace Call

def inside (policy : Policy) (call : Call) : Bool :=
    call.policy = policy && (call.phase = .running || call.phase = .leaving)

/-- The call has a slot of the semaphore. -/
def holds (call : Call) : Bool :=
  call.policy = .safe &&
    match call.phase with
    | .slot _ | .running | .leaving => true
    | _ => false

def started (call : Call) : Bool :=
  match call.phase with
  | .arrived | .slot _ => false
  | _ => true

variable (call : Call)

theorem notify_policy : call.notify.policy = call.policy := by
  unfold notify
  split <;> rfl

theorem notify_behind : call.notify.behind = call.behind := by
  unfold notify
  split <;> rfl

theorem notify_inside (policy : Policy) : call.notify.inside policy = call.inside policy := by
  rcases call with ⟨_, phase, _, _⟩
  cases phase <;> rfl

theorem notify_holds : call.notify.holds = call.holds := by
  rcases call with ⟨_, phase, _, _⟩
  cases phase <;> rfl

theorem notify_waitsExclusive : call.notify.waitsExclusive = call.waitsExclusive := by
  rcases call with ⟨policy, phase, _, _⟩
  cases policy <;> cases phase <;> rfl

theorem notify_started : call.notify.started = call.started := by
  rcases call with ⟨_, phase, _, _⟩
  cases phase <;> rfl

/-- A notification changes what waits for one, and nothing else. -/
theorem notify_phase : (call.notify.phase ≠ .slot .blocked ∧ call.notify.phase ≠ .result .blocked) ∧
    (call.notify.phase = .released ↔ call.phase = .released) ∧ (call.notify.phase = .turn ↔ call.phase = .turn) := by
  rcases call with ⟨_, phase, _, _⟩
  cases phase <;> simp [notify]

end Call

/-- What the counters of the barrier count. -/
structure Counts (slots : Nat) (s : State) : Prop where
  safe : s.activeSafe = s.calls.countP (Call.inside .safe)
  exclusive : s.exclusiveActive.toNat = s.calls.countP (Call.inside .exclusive)
  waiting : s.exclusiveWaiting = s.calls.countP Call.waitsExclusive
  slots : s.safeSlots + s.calls.countP Call.holds = slots
  apart : s.exclusiveActive = true → s.activeSafe = 0

theorem countP_put {s : State} {ticket : Nat} {call : Call} (h : s.calls[ticket]? = some call)
    (call' : Call) (f : Call → Bool) :
    (s.put ticket call').calls.countP f + (f call).toNat = s.calls.countP f + (f call').toNat := by
  obtain ⟨hlt, hget⟩ := List.getElem?_eq_some_iff.mp h
  have hset := List.countP_set (p := f) (a := call') hlt
  have hpos : (f call).toNat ≤ s.calls.countP f := by
    cases hf : f call with
    | false => exact Nat.zero_le _
    | true => exact List.countP_pos_iff.mpr ⟨call, List.mem_of_getElem? h, hf⟩
  rw [hget] at hset
  have hnat : ∀ b : Bool, (if b = true then 1 else 0) = b.toNat := fun b => by cases b <;> rfl
  rw [hnat, hnat] at hset
  rw [State.put]
  dsimp only
  rw [hset]
  omega

theorem countP_notifyAll (s : State) {f : Call → Bool} (h : ∀ call, f (Call.notify call) = f call) :
    s.notifyAll.calls.countP f = s.calls.countP f := by
  rw [State.notifyAll]
  dsimp only
  rw [List.countP_map]
  exact List.countP_congr fun call _ => by rw [Function.comp_apply, h]

theorem Counts.notifyAll {slots : Nat} {s : State} (h : Counts slots s) : Counts slots s.notifyAll :=
  ⟨h.safe.trans (countP_notifyAll s fun call => call.notify_inside .safe).symm,
    h.exclusive.trans (countP_notifyAll s fun call => call.notify_inside .exclusive).symm,
    h.waiting.trans (countP_notifyAll s Call.notify_waitsExclusive).symm, by
      rw [countP_notifyAll s Call.notify_holds]
      exact h.slots, h.apart⟩

/-- One call moves on, and the counters with it. -/
theorem Counts.put {slots : Nat} {s s' : State} (h : Counts slots s) {ticket : Nat}
    {call call' : Call} (hcall : s.calls[ticket]? = some call)
    (hcalls : s'.calls = s.calls.set ticket call')
    (hsafe : s'.activeSafe + (call.inside .safe).toNat = s.activeSafe + (call'.inside .safe).toNat)
    (hexclusive : s'.exclusiveActive.toNat + (call.inside .exclusive).toNat =
      s.exclusiveActive.toNat + (call'.inside .exclusive).toNat)
    (hwaiting : s'.exclusiveWaiting + call.waitsExclusive.toNat = s.exclusiveWaiting + call'.waitsExclusive.toNat)
    (hslots : s'.safeSlots + call'.holds.toNat = s.safeSlots + call.holds.toNat)
    (hapart : s'.exclusiveActive = true → s'.activeSafe = 0) :
    Counts slots s' := by
  have hput : ∀ f : Call → Bool, s'.calls.countP f + (f call).toNat = s.calls.countP f + (f call').toNat := fun f =>
    (congrArg (fun calls : List Call => calls.countP f + (f call).toNat) hcalls).trans (countP_put hcall call' f)
  obtain ⟨hs, he, hw, hl, -⟩ := h
  have hs' := hput (Call.inside .safe)
  have he' := hput (Call.inside .exclusive)
  have hw' := hput Call.waitsExclusive
  have hl' := hput Call.holds
  exact ⟨by omega, by omega, by omega, by omega, hapart⟩

/-- An exclusive call that was waiting when a safe call came has started when that starts. -/
def Behind (calls : List Call) : Prop :=
  ∀ (ticket : Nat) (call : Call), calls[ticket]? = some call → ∀ other ∈ call.behind,
    ∃ call' : Call, calls[other]? = some call' ∧
    call'.policy = .exclusive ∧ (call'.waitsExclusive = true ∨ call'.started = true) ∧
    (call.policy = .safe → call.started = true → call'.started = true)

/-- What the calls owe each other: the tickets are places, and results are released in their order. -/
structure Line (s : State) : Prop where
  tickets : s.nextTicket = s.calls.length
  released : ∀ (ticket : Nat) (call : Call), s.calls[ticket]? = some call →
    (call.phase = .released ↔ ticket < s.nextResult)
  turn : ∀ (ticket : Nat) (call : Call), s.calls[ticket]? = some call → call.phase = .turn → ticket = s.nextResult
  bound : s.nextResult ≤ s.calls.length
  finished : s.finished = []
  results : s.results = List.range s.nextResult
  behind : Behind s.calls

theorem admits_safe {s : State} : s.admits .safe = true ↔ s.exclusiveActive = false ∧ s.exclusiveWaiting = 0 := by
  rw [State.admits, Bool.and_eq_true, Bool.not_eq_true', decide_eq_true_eq]

theorem admits_exclusive {s : State} : s.admits .exclusive = true ↔ s.exclusiveActive = false ∧ s.activeSafe = 0 := by
  rw [State.admits, Bool.and_eq_true, Bool.not_eq_true', decide_eq_true_eq]

/-- No call waits for what has come. -/
def Woken (s : State) : Prop :=
  ∀ (ticket : Nat) (call : Call), s.calls[ticket]? = some call →
    (call.phase = .slot .blocked → s.admits call.policy = false) ∧
    (call.phase = .result .blocked → ticket ≠ s.nextResult)

theorem getElem?_notifyAll (s : State) (ticket : Nat) :
    s.notifyAll.calls[ticket]? = s.calls[ticket]?.map Call.notify := by
  rw [State.notifyAll]
  dsimp only
  rw [List.getElem?_map]

theorem woken_notifyAll (s : State) : Woken s.notifyAll := by
  intro ticket call hcall
  rw [getElem?_notifyAll] at hcall
  obtain ⟨call', -, rfl⟩ := Option.map_eq_some_iff.mp hcall
  obtain ⟨⟨hslot, hresult⟩, -⟩ := call'.notify_phase
  exact ⟨fun hblocked => absurd hblocked hslot, fun hblocked => absurd hblocked hresult⟩

theorem Line.notifyAll {s : State} (h : Line s) : Line s.notifyAll := by
  have hback : ∀ {ticket : Nat} {call : Call}, s.notifyAll.calls[ticket]? = some call → ∃ call',
      s.calls[ticket]? = some call' ∧ call'.notify = call := by
    intro ticket call hcall
    rw [getElem?_notifyAll] at hcall
    exact Option.map_eq_some_iff.mp hcall
  refine ⟨h.tickets.trans (List.length_map _).symm, fun ticket call hcall => ?_,
    fun ticket call hcall hturn => ?_, (List.length_map _).symm ▸ h.bound, h.finished,
    h.results, fun ticket call hcall other hother => ?_⟩
  · obtain ⟨call', hcall', rfl⟩ := hback hcall
    exact call'.notify_phase.2.1.trans (h.released ticket call' hcall')
  · obtain ⟨call', hcall', rfl⟩ := hback hcall
    exact h.turn ticket call' hcall' (call'.notify_phase.2.2.mp hturn)
  · obtain ⟨call', hcall', rfl⟩ := hback hcall
    rw [Call.notify_behind] at hother
    obtain ⟨found, hfound, hpolicy, hwaits, hstarted⟩ := h.behind ticket call' hcall' other hother
    refine ⟨found.notify, by rw [getElem?_notifyAll, hfound]; rfl,
      found.notify_policy.trans hpolicy, ?_, fun hsafe hcall => ?_⟩
    · rw [Call.notify_waitsExclusive, Call.notify_started]
      exact hwaits
    · rw [Call.notify_started]
      rw [Call.notify_policy] at hsafe
      rw [Call.notify_started] at hcall
      exact hstarted hsafe hcall

theorem getElem?_set {calls : List Call} {ticket : Nat} {call call' : Call}
    (h : calls[ticket]? = some call) {other : Nat} {found : Call}
    (hfound : (calls.set ticket call')[other]? = some found) :
    other = ticket ∧ found = call' ∨ other ≠ ticket ∧ calls[other]? = some found := by
  obtain ⟨hlt, -⟩ := List.getElem?_eq_some_iff.mp h
  by_cases heq : other = ticket
  · rw [heq, List.getElem?_set_self hlt] at hfound
    exact .inl ⟨heq, (Option.some.inj hfound).symm⟩
  · rw [List.getElem?_set_ne (Ne.symm heq)] at hfound
    exact .inr ⟨heq, hfound⟩

/-- A call moves on; if a safe one starts, no exclusive call is waiting. -/
theorem Behind.put {calls : List Call} (h : Behind calls) {ticket : Nat} {call call' : Call}
    (hcall : calls[ticket]? = some call)
    (hpolicy : call'.policy = call.policy) (hbehind : call'.behind = call.behind)
    (hstarted : call.started = true → call'.started = true)
    (hwaits : call.waitsExclusive = true → call'.waitsExclusive = true ∨ call'.started = true)
    (hstarts : call.policy = .safe → call'.started = true → call.started = true ∨ ∀ other ∈ calls,
      other.waitsExclusive = false) :
    Behind (calls.set ticket call') := by
  have hlt := (List.getElem?_eq_some_iff.mp hcall).1
  -- What stands behind a call has only moved on.
  have hmoved : ∀ {place : Nat} {before : Call}, calls[place]? = some before → before.policy = .exclusive →
      (before.waitsExclusive = true ∨ before.started = true) →
      ∃ after, (calls.set ticket call')[place]? = some after ∧ after.policy = .exclusive ∧
      (after.waitsExclusive = true ∨ after.started = true) ∧
        (before.started = true → after.started = true) := by
    intro place before hbefore hexclusive hcase
    by_cases heq : place = ticket
    · rw [heq] at hbefore ⊢
      obtain rfl := Option.some.inj (hcall.symm.trans hbefore)
      exact ⟨call', List.getElem?_set_self hlt, hpolicy.trans hexclusive,
        hcase.elim hwaits fun hin => .inr (hstarted hin), hstarted⟩
    · exact ⟨before, by rw [List.getElem?_set_ne (Ne.symm heq), hbefore], hexclusive, hcase, id⟩
  intro other found hfound place hplace
  obtain ⟨rfl, rfl⟩ | ⟨-, hfound⟩ := getElem?_set hcall hfound
  · obtain ⟨before, hbefore, hexclusive, hcase, hlater⟩ := h other call hcall place (hbehind ▸ hplace)
    obtain ⟨after, hafter, hexclusive', hcase', hgoes⟩ := hmoved hbefore hexclusive hcase
    refine ⟨after, hafter, hexclusive', hcase', fun hsafe hin => hgoes ?_⟩
    rw [hpolicy] at hsafe
    obtain hin | hnone := hstarts hsafe hin
    · exact hlater hsafe hin
    · exact hcase.resolve_left fun hwaiting => nomatch (hnone before (List.mem_of_getElem? hbefore)).symm.trans hwaiting
  · obtain ⟨before, hbefore, hexclusive, hcase, hlater⟩ := h other found hfound place hplace
    obtain ⟨after, hafter, hexclusive', hcase', hgoes⟩ := hmoved hbefore hexclusive hcase
    exact ⟨after, hafter, hexclusive', hcase', fun hsafe hin => hgoes (hlater hsafe hin)⟩

/-- A call moves on, with the counters of the results as they are. -/
theorem Line.put {s s' : State} (h : Line s) {ticket : Nat} {call call' : Call} (hcall : s.calls[ticket]? = some call)
    (hcalls : s'.calls = s.calls.set ticket call') (hsame : s'.nextTicket = s.nextTicket ∧
      s'.nextResult = s.nextResult ∧ s'.finished = s.finished ∧
      s'.results = s.results) (hreleased : call'.phase = .released ↔ call.phase = .released)
      (hturn : call'.phase = .turn → ticket = s.nextResult)
    (hpolicy : call'.policy = call.policy) (hbehind : call'.behind = call.behind)
      (hstarted : call.started = true → call'.started = true)
    (hwaits : call.waitsExclusive = true → call'.waitsExclusive = true ∨ call'.started = true)
    (hstarts : call.policy = .safe → call'.started = true → call.started = true ∨ ∀ other ∈ s.calls,
      other.waitsExclusive = false) : Line s' := by
  obtain ⟨hticket, hresult, hfinished, hresults⟩ := hsame
  have hlt := (List.getElem?_eq_some_iff.mp hcall).1
  refine ⟨?_, fun other found hfound => ?_, fun other found hfound hphase => ?_, ?_,
    hfinished.trans h.finished, ?_, fun other found hfound place hplace => ?_⟩
  · rw [hticket, hcalls, List.length_set, h.tickets]
  · rw [hresult]
    obtain ⟨rfl, rfl⟩ | ⟨-, hfound⟩ := getElem?_set hcall (hcalls ▸ hfound)
    · exact hreleased.trans (h.released other call hcall)
    · exact h.released other found hfound
  · rw [hresult]
    obtain ⟨rfl, rfl⟩ | ⟨-, hfound⟩ := getElem?_set hcall (hcalls ▸ hfound)
    · exact hturn hphase
    · exact h.turn other found hfound hphase
  · rw [hresult, hcalls, List.length_set]
    exact h.bound
  · rw [hresults, hresult]
    exact h.results
  · rw [hcalls]
    exact h.behind.put hcall hpolicy hbehind hstarted hwaits hstarts other found (hcalls ▸ hfound) place hplace

/-- A call moves on and nobody is notified. -/
theorem Woken.put {s s' : State} (h : Woken s) {ticket : Nat} {call call' : Call} (hcall : s.calls[ticket]? = some call)
    (hcalls : s'.calls = s.calls.set ticket call') (hresult : s'.nextResult = s.nextResult)
    (hadmits : ∀ policy, s.admits policy = false → s'.admits policy = false)
    (hslot : call'.phase = .slot .blocked → s'.admits call'.policy = false)
    (hturn : call'.phase = .result .blocked → ticket ≠ s.nextResult) : Woken s' := by
  intro other found hfound
  rw [hresult]
  obtain ⟨rfl, rfl⟩ | ⟨-, hfound⟩ := getElem?_set hcall (hcalls ▸ hfound)
  · exact ⟨hslot, hturn⟩
  · obtain ⟨hslot', hturn'⟩ := h other found hfound
    exact ⟨fun hblocked => hadmits _ (hslot' hblocked), hturn'⟩

/-- A section of a call that is in one phase. -/
theorem at_phase {s s' : State} {ticket : Nat} {phase : Phase} {f : Call → State}
    (h : (match s.calls[ticket]? with
      | some call => if call.phase = phase then some (f call) else none
      | none => none) = some s') : ∃ call, s.calls[ticket]? = some call ∧ call.phase = phase ∧ s' = f call := by
  split at h
  case h_2 => exact nomatch h
  case h_1 call hcall =>
    split at h
    case isFalse => exact nomatch h
    case isTrue hphase => exact ⟨call, hcall, hphase, (Option.some.inj h).symm⟩

structure Inv (slots : Nat) (s : State) : Prop where
  counts : Counts slots s
  line : Line s
  woken : Woken s

namespace Inv

variable {slots : Nat} {s : State}

theorem none_waits (h : Counts slots s) (hzero : s.exclusiveWaiting = 0) :
    ∀ call ∈ s.calls, call.waitsExclusive = false := by
  intro call hcall
  have hcount := h.waiting.symm.trans hzero
  exact Bool.not_eq_true _ ▸ List.countP_eq_zero.mp hcount call hcall

/-- A call checks its wait for a slot, for the first time or again. -/
theorem enter (h : Inv slots s) {ticket : Nat} {call : Call} (hcall : s.calls[ticket]? = some call) {waiting : Nat}
    (hphase : call.phase = .arrived ∧ call.policy = .exclusive ∧ waiting = s.exclusiveWaiting + 1 ∨
      call.phase = .slot .check ∧ waiting = s.exclusiveWaiting) :
    Inv slots ({s with exclusiveWaiting := waiting}.enter ticket call) := by
  have hnot : call.started = false ∧ call.phase ≠ .released ∧ call.phase ≠ .turn := by
    obtain ⟨hphase, -⟩ | ⟨hphase, -⟩ := hphase <;> simp [Call.started, hphase]
  have hstarts : ∀ {b : Prop}, call.started = true → b := fun hin => nomatch hnot.1.symm.trans hin
  have hwhole : waiting + call.waitsExclusive.toNat = s.exclusiveWaiting + (call.policy = .exclusive : Bool).toNat := by
    rcases call with ⟨_ | _, phase, _, _⟩ <;> obtain ⟨hphase, hrest⟩ | ⟨hphase, hrest⟩ := hphase <;> cases hphase <;>
      simp_all [Call.waitsExclusive]
  have hmore : s.exclusiveWaiting ≤ waiting := by
    obtain ⟨-, -, hrest⟩ | ⟨-, hrest⟩ := hphase <;> omega
  unfold State.enter
  split
  case isTrue hadmits =>
    split
    case h_1 hpolicy =>
      -- A safe call starts; it has been waiting for a slot.
      have hphase : call.phase = .slot .check ∧ waiting = s.exclusiveWaiting :=
          hphase.resolve_left fun hcase => nomatch hpolicy.symm.trans hcase.2.1
      rw [hpolicy] at hadmits
      obtain ⟨hactive, hwaiting⟩ : s.exclusiveActive = false ∧ waiting = 0 := admits_safe.mp hadmits
      have hwaiting : s.exclusiveWaiting = 0 := hphase.2 ▸ hwaiting
      refine ⟨h.counts.put hcall rfl ?_ ?_ ?_ ?_ ?_, h.line.put hcall rfl ⟨rfl, rfl, rfl,
        rfl⟩ ?_ nofun rfl rfl hstarts ?_ ?_, h.woken.put hcall rfl rfl ?_ nofun nofun⟩
      · simp [State.put, Call.inside, hpolicy, hphase.1]
      · simp [State.put, Call.inside, hpolicy]
      · simp [State.put, Call.waitsExclusive, hpolicy, hphase.2]
      · simp [State.put, Call.holds, hpolicy, hphase.1]
      · exact fun hin => nomatch hactive.symm.trans hin
      · exact ⟨nofun, fun hin => absurd hin hnot.2.1⟩
      · exact fun _ => .inr rfl
      · exact fun _ _ => .inr (none_waits h.counts hwaiting)
      · intro policy hfalse
        refine Bool.eq_false_iff.mpr fun htrue => Bool.eq_false_iff.mp hfalse ?_
        cases policy with
        | safe => exact admits_safe.mpr ⟨hactive, hwaiting⟩
        | exclusive => exact absurd (admits_exclusive.mp htrue).2 (Nat.succ_ne_zero _)
    case h_2 hpolicy =>
      rw [hpolicy] at hadmits hwhole
      obtain ⟨hactive, hsafe⟩ : s.exclusiveActive = false ∧ s.activeSafe = 0 := admits_exclusive.mp hadmits
      have hpos : waiting = s.exclusiveWaiting + 1 ∧ call.waitsExclusive = false ∨
          waiting = s.exclusiveWaiting ∧ call.waitsExclusive = true := by
        cases hcase : call.waitsExclusive <;> simp [hcase] at hwhole ⊢ <;> omega
      have hcounted : 0 < waiting := by
        obtain ⟨hcase, -⟩ | ⟨hcase, hin⟩ := hpos
        · omega
        · rw [hcase, h.counts.waiting]
          exact List.countP_pos_iff.mpr ⟨call, List.mem_of_getElem? hcall, hin⟩
      have hinside : ∀ policy, call.inside policy = false := by
        intro policy
        obtain ⟨hphase, -⟩ | ⟨hphase, -⟩ := hphase <;> simp [Call.inside, hphase]
      have hcounts : Counts slots (State.put {s with exclusiveActive := true, exclusiveWaiting := waiting - 1}
          ticket {call with phase := .running}) := by
        refine h.counts.put hcall rfl ?_ ?_ ?_ ?_ fun _ => hsafe
        · rw [hinside]
          simp [State.put, Call.inside, hpolicy]
        · rw [hinside]
          simp [State.put, Call.inside, hpolicy, hactive]
        · have hlast : Call.waitsExclusive {call with phase := .running} = false := by simp [Call.waitsExclusive]
          have hone : (decide (Policy.exclusive = Policy.exclusive)).toNat = 1 := rfl
          rw [hone] at hwhole
          rw [hlast]
          dsimp only [State.put, Bool.toNat_false]
          omega
        · simp [State.put, Call.holds, hpolicy]
      have hline : Line (State.put {s with exclusiveActive := true, exclusiveWaiting := waiting - 1}
          ticket {call with phase := .running}) :=
        h.line.put hcall rfl ⟨rfl, rfl, rfl, rfl⟩
          ⟨nofun, fun hin => absurd hin hnot.2.1⟩ nofun rfl rfl hstarts (fun _ => .inr rfl)
          fun hin => nomatch hpolicy.symm.trans hin
      exact ⟨hcounts.notifyAll, hline.notifyAll, woken_notifyAll _⟩
  case isFalse hadmits =>
    have hadmits : State.admits {s with exclusiveWaiting := waiting} call.policy = false := Bool.not_eq_true _ ▸ hadmits
    refine ⟨h.counts.put hcall rfl ?_ ?_ ?_ ?_ h.counts.apart, h.line.put hcall rfl
      ⟨rfl, rfl, rfl, rfl⟩ ?_ nofun rfl rfl hstarts ?_ (fun _ hin => nomatch hin),
      h.woken.put hcall rfl rfl ?_ (fun _ => hadmits) nofun⟩
    · obtain ⟨hphase, -⟩ | ⟨hphase, -⟩ := hphase <;> simp [State.put, Call.inside, hphase]
    · obtain ⟨hphase, -⟩ | ⟨hphase, -⟩ := hphase <;> simp [State.put, Call.inside, hphase]
    · rcases call with ⟨_ | _, phase, _, _⟩ <;> simpa [State.put, Call.waitsExclusive] using hwhole
    · obtain ⟨hphase, hpolicy, -⟩ | ⟨hphase, -⟩ := hphase
      · simp [State.put, Call.holds, hphase, hpolicy]
      · simp [State.put, Call.holds, hphase]
    · exact ⟨nofun, fun hin => absurd hin hnot.2.1⟩
    · rcases call with ⟨_ | _, phase, _, _⟩
      · exact fun hin => nomatch hin
      · exact fun _ => .inl rfl
    · intro policy hfalse
      refine Bool.eq_false_iff.mpr fun htrue => Bool.eq_false_iff.mp hfalse ?_
      cases policy with
      | safe =>
        obtain ⟨hactive, hzero⟩ : s.exclusiveActive = false ∧ waiting = 0 := admits_safe.mp htrue
        exact admits_safe.mpr ⟨hactive, by omega⟩
      | exclusive => exact admits_exclusive.mpr (admits_exclusive.mp htrue)

/-- A call comes. -/
theorem call (h : Inv slots s) (policy : Policy) :
    Inv slots {s with nextTicket := s.nextTicket + 1, calls := s.calls ++ [newcomer s policy]} := by
  have hback : ∀ {ticket : Nat} {found : Call}, (s.calls ++ [newcomer s policy])[ticket]? = some found →
      s.calls[ticket]? = some found ∨ ticket = s.calls.length ∧ found = newcomer s policy := by
    intro ticket found hfound
    rw [List.getElem?_append] at hfound
    split at hfound
    case isTrue => exact .inl hfound
    case isFalse hge =>
      obtain ⟨hlt, -⟩ := List.getElem?_eq_some_iff.mp hfound
      rw [List.length_singleton] at hlt
      have heq : ticket = s.calls.length := by omega
      rw [heq, Nat.sub_self] at hfound
      exact .inr ⟨heq, (Option.some.inj hfound).symm⟩
  have hfront : ∀ {ticket : Nat} {found : Call}, s.calls[ticket]? = some found →
      (s.calls ++ [newcomer s policy])[ticket]? = some found := by
    intro ticket found hfound
    rw [List.getElem?_append_left (List.getElem?_eq_some_iff.mp hfound).1, hfound]
  have hcount : ∀ f : Call → Bool, f (newcomer s policy) = false →
      (s.calls ++ [newcomer s policy]).countP f = s.calls.countP f := by
    intro f hf
    rw [List.countP_append, List.countP_singleton, hf]
    rfl
  refine ⟨⟨?_, ?_, ?_, ?_, h.counts.apart⟩, ⟨?_, fun ticket found hfound => ?_,
    fun ticket found hfound hturn => ?_, ?_, h.line.finished, h.line.results,
    fun ticket found hfound other hother => ?_⟩, fun ticket found hfound => ?_⟩
  · exact h.counts.safe.trans (hcount _ (by simp [newcomer, Call.inside])).symm
  · exact h.counts.exclusive.trans (hcount _ (by simp [newcomer, Call.inside])).symm
  · exact h.counts.waiting.trans (hcount _ (by cases policy <;> rfl)).symm
  · have hholds := hcount Call.holds (by simp [newcomer, Call.holds])
    dsimp only
    rw [hholds]
    exact h.counts.slots
  · rw [List.length_append, h.line.tickets]
    rfl
  · obtain hfound | ⟨rfl, rfl⟩ := hback hfound
    · exact h.line.released ticket found hfound
    · exact ⟨nofun, fun hlt => absurd h.line.bound (Nat.not_le.mpr hlt)⟩
  · obtain hfound | ⟨rfl, rfl⟩ := hback hfound
    · exact h.line.turn ticket found hfound hturn
    · exact nomatch hturn
  · rw [List.length_append]
    exact Nat.le_add_right_of_le h.line.bound
  · obtain hfound | ⟨rfl, rfl⟩ := hback hfound
    · obtain ⟨before, hbefore, hrest⟩ := h.line.behind ticket found hfound other hother
      exact ⟨before, hfront hbefore, hrest⟩
    · obtain ⟨⟨before, place⟩, hmem, hpick⟩ := List.mem_filterMap.mp hother
      have hbefore := List.mem_zipIdx_iff_getElem?.mp hmem
      cases hwaits : before.waitsExclusive with
      | false => simp [hwaits] at hpick
      | true =>
        obtain rfl : place = other := by simpa [hwaits] using hpick
        have hpolicy : before.policy = .exclusive := by
          rcases before with ⟨_ | _, _, _, _⟩
          · exact nomatch hwaits
          · rfl
        exact ⟨before, hfront hbefore, hpolicy, .inl hwaits, fun _ hin => nomatch hin⟩
  · obtain hfound | ⟨rfl, rfl⟩ := hback hfound
    · exact h.woken ticket found hfound
    · exact ⟨nofun, nofun⟩

theorem leave (h : Inv slots s) {ticket : Nat} {call : Call} (hcall : s.calls[ticket]? = some call)
    (hphase : call.phase = .leaving) :
    Inv slots (s.leave ticket call) := by
  have hstarted : call.started = true := by simp [Call.started, hphase]
  have hnot : ∀ {b : Prop}, call.phase = .released → b := fun hin => nomatch hphase.symm.trans hin
  unfold State.leave
  split
  case h_1 hpolicy =>
    have hactive : 0 < s.activeSafe := by
      rw [h.counts.safe]
      exact List.countP_pos_iff.mpr ⟨call, List.mem_of_getElem? hcall, by simp [Call.inside, hpolicy, hphase]⟩
    have hcounts : Counts slots {State.put {s with activeSafe := s.activeSafe - 1} ticket {call with
        phase := .result .check} with safeSlots := s.safeSlots + 1} := by
      refine h.counts.put hcall rfl ?_ ?_ ?_ ?_ fun hin => ?_
      · simp [State.put, Call.inside, hpolicy, hphase]
        omega
      · simp [State.put, Call.inside, hpolicy]
      · simp [State.put, Call.waitsExclusive, hpolicy]
      · simp [Call.holds, hpolicy, hphase]
      · exact absurd (h.counts.apart hin) (Nat.pos_iff_ne_zero.mp hactive)
    have hline : Line {State.put {s with activeSafe := s.activeSafe - 1} ticket {call with
        phase := .result .check} with safeSlots := s.safeSlots + 1} :=
      h.line.put hcall rfl ⟨rfl, rfl, rfl, rfl⟩ ⟨nofun, hnot⟩ nofun rfl rfl (fun _ => rfl)
        (fun _ => .inr rfl) fun _ _ => .inl hstarted
    exact ⟨hcounts.notifyAll, hline.notifyAll, woken_notifyAll _⟩
  case h_2 hpolicy =>
    have hactive : s.exclusiveActive = true := by
      have hpos : 0 < s.exclusiveActive.toNat := by
        rw [h.counts.exclusive]
        exact List.countP_pos_iff.mpr ⟨call, List.mem_of_getElem? hcall, by simp [Call.inside, hpolicy, hphase]⟩
      cases hcase : s.exclusiveActive with
      | true => rfl
      | false => exact absurd hpos (by rw [hcase]; exact Nat.lt_irrefl 0)
    have hcounts : Counts slots (State.put {s with exclusiveActive := false} ticket
        {call with phase := .result .check}) := by
      refine h.counts.put hcall rfl ?_ ?_ ?_ ?_ nofun
      · simp [State.put, Call.inside, hpolicy]
      · simp [State.put, Call.inside, hpolicy, hphase, hactive]
      · simp [State.put, Call.waitsExclusive, hpolicy, hphase]
      · simp [State.put, Call.holds, hpolicy]
    have hline : Line (State.put {s with exclusiveActive := false} ticket {call with phase := .result .check}) :=
      h.line.put hcall rfl ⟨rfl, rfl, rfl, rfl⟩ ⟨nofun, hnot⟩ nofun rfl rfl (fun _ => rfl)
        (fun _ => .inr rfl) fun _ _ => .inl hstarted
    exact ⟨hcounts.notifyAll, hline.notifyAll, woken_notifyAll _⟩

theorem release_single (ticket : Nat) : State.release ticket [ticket] = (ticket + 1, []) := by
  rw [State.release, if_pos (List.mem_singleton.mpr rfl), List.erase_cons_head, State.release, if_neg List.not_mem_nil]

theorem finish (h : Inv slots s) {ticket : Nat} {call : Call} (hcall : s.calls[ticket]? = some call)
    (hphase : call.phase = .turn) :
    Inv slots (s.finishResult ticket call) := by
  have hturn := h.line.turn ticket call hcall hphase
  have hlt := (List.getElem?_eq_some_iff.mp hcall).1
  have hfinish : s.finishResult ticket call =
      ({s with nextResult := ticket + 1, finished := [], results := s.results ++ [ticket]}.put ticket
      {call with phase := .released}).notifyAll := by
    unfold State.finishResult
    rw [h.line.finished, ← hturn, release_single]
  have hcounts : Counts slots (State.put
      {s with nextResult := ticket + 1, finished := [], results := s.results ++ [ticket]} ticket
      {call with phase := .released}) := by
    refine h.counts.put hcall rfl ?_ ?_ ?_ ?_ h.counts.apart
    · simp [State.put, Call.inside, hphase]
    · simp [State.put, Call.inside, hphase]
    · rcases call with ⟨_ | _, phase, _, _⟩ <;> cases hphase <;> rfl
    · simp [State.put, Call.holds, hphase]
  have hline : Line (State.put
      {s with nextResult := ticket + 1, finished := [], results := s.results ++ [ticket]} ticket
      {call with phase := .released}) := by
    refine ⟨(List.length_set ..).symm ▸ h.line.tickets, fun other found hfound => ?_,
      fun other found hfound hphase' => ?_, ?_, rfl, ?_, ?_⟩
    · obtain ⟨rfl, rfl⟩ | ⟨hne, hfound⟩ := getElem?_set hcall hfound
      · exact ⟨fun _ => Nat.lt_succ_self _, fun _ => rfl⟩
      · refine (h.line.released other found hfound).trans ⟨fun hcase => ?_, fun hcase => ?_⟩
        · exact Nat.lt_succ_of_lt (hturn ▸ hcase)
        · exact hturn ▸ Nat.lt_of_le_of_ne (Nat.le_of_lt_succ hcase) hne
    · obtain ⟨rfl, rfl⟩ | ⟨hne, hfound⟩ := getElem?_set hcall hfound
      · exact nomatch hphase'
      · exact absurd ((h.line.turn other found hfound hphase').trans hturn.symm) hne
    · dsimp only [State.put]
      rw [List.length_set]
      exact hlt
    · dsimp only [State.put]
      rw [h.line.results, ← hturn, List.range_succ]
    · exact h.line.behind.put hcall rfl rfl (fun _ => rfl) (fun _ => .inr rfl) fun _ _ =>
        .inl (by simp [Call.started, hphase])
  rw [hfinish]
  exact ⟨hcounts.notifyAll, hline.notifyAll, woken_notifyAll _⟩

/-- A safe call takes a slot of the semaphore. -/
theorem request (h : Inv slots s) {ticket : Nat} {call : Call}
    (hcall : s.calls[ticket]? = some call) (hpolicy : call.policy = .safe)
    (hphase : call.phase = .arrived) (hslots : s.safeSlots ≠ 0) :
    Inv slots (State.put {s with safeSlots := s.safeSlots - 1} ticket {call with phase := .slot .check}) := by
  refine ⟨h.counts.put hcall rfl ?_ ?_ ?_ ?_ h.counts.apart,
    h.line.put hcall rfl ⟨rfl, rfl, rfl, rfl⟩ ?_ nofun rfl rfl ?_ ?_ (fun _ hin => nomatch hin),
    h.woken.put hcall rfl rfl (fun _ => id) nofun nofun⟩
  · simp [State.put, Call.inside, hphase]
  · simp [State.put, Call.inside, hphase]
  · simp [State.put, Call.waitsExclusive, hpolicy]
  · simp [State.put, Call.holds, hpolicy, hphase]
    omega
  · exact ⟨nofun, fun hin => nomatch hphase.symm.trans hin⟩
  · exact fun hin => by simp [Call.started, hphase] at hin
  · exact fun hin => by simp [Call.waitsExclusive, hpolicy] at hin

/-- The body of a call ends. -/
theorem ends (h : Inv slots s) {ticket : Nat} {call : Call} (hcall : s.calls[ticket]? = some call)
    (hphase : call.phase = .running) (failed : Bool) :
    Inv slots (s.put ticket {call with phase := .leaving, failed}) := by
  refine ⟨h.counts.put hcall rfl ?_ ?_ ?_ ?_ h.counts.apart, h.line.put hcall rfl
    ⟨rfl, rfl, rfl, rfl⟩ ?_ nofun rfl rfl (fun _ => rfl) (fun _ => .inr rfl) ?_,
    h.woken.put hcall rfl rfl (fun _ => id) nofun nofun⟩
  · simp [State.put, Call.inside, hphase]
  · simp [State.put, Call.inside, hphase]
  · rcases call with ⟨_ | _, phase, _, _⟩ <;> cases hphase <;> rfl
  · simp [State.put, Call.holds, hphase]
  · exact ⟨nofun, fun hin => nomatch hphase.symm.trans hin⟩
  · exact fun _ _ => .inl (by simp [Call.started, hphase])

/-- A call asks whether it is its turn. -/
theorem await (h : Inv slots s) {ticket : Nat} {call : Call} (hcall : s.calls[ticket]? = some call)
    (hphase : call.phase = .result .check) :
    Inv slots (s.put ticket {call with phase := if ticket = s.nextResult then .turn else .result .blocked}) := by
  have hcases : ∀ {phase : Phase},
      (phase = .turn ∧ ticket = s.nextResult ∨ phase = .result .blocked ∧ ticket ≠ s.nextResult) →
      Inv slots (s.put ticket {call with phase}) := by
    intro phase hnew
    refine ⟨h.counts.put hcall rfl ?_ ?_ ?_ ?_ h.counts.apart,
      h.line.put hcall rfl ⟨rfl, rfl, rfl, rfl⟩ ?_ ?_ rfl rfl ?_ ?_ ?_,
      h.woken.put hcall rfl rfl (fun _ => id) ?_ ?_⟩
    · obtain ⟨rfl, -⟩ | ⟨rfl, -⟩ := hnew <;> simp [State.put, Call.inside, hphase]
    · obtain ⟨rfl, -⟩ | ⟨rfl, -⟩ := hnew <;> simp [State.put, Call.inside, hphase]
    · obtain ⟨rfl, -⟩ | ⟨rfl, -⟩ := hnew <;> rcases call with ⟨_ | _, phase, _, _⟩ <;> cases hphase <;> rfl
    · obtain ⟨rfl, -⟩ | ⟨rfl, -⟩ := hnew <;> simp [State.put, Call.holds, hphase]
    · obtain ⟨rfl, -⟩ | ⟨rfl, -⟩ := hnew <;> simp [hphase]
    · obtain ⟨rfl, hturn⟩ | ⟨rfl, -⟩ := hnew
      · exact fun _ => hturn
      · exact nofun
    · obtain ⟨rfl, -⟩ | ⟨rfl, -⟩ := hnew <;> exact fun _ => rfl
    · obtain ⟨rfl, -⟩ | ⟨rfl, -⟩ := hnew <;> exact fun _ => .inr rfl
    · exact fun _ _ => .inl (by simp [Call.started, hphase])
    · obtain ⟨rfl, -⟩ | ⟨rfl, -⟩ := hnew <;> exact nofun
    · obtain ⟨rfl, -⟩ | ⟨rfl, hturn⟩ := hnew
      · exact nofun
      · exact fun _ => hturn
  refine hcases ?_
  split
  case isTrue hturn => exact .inl ⟨rfl, hturn⟩
  case isFalse hturn => exact .inr ⟨rfl, hturn⟩

/-- What one section does keeps the barrier. -/
theorem step {event : Event} {s' : State} (h : Inv slots s) (hstep : Runs s event s') : Inv slots s' := by
  have hstep : apply s event = some s' := hstep
  cases event with
  | call policy =>
    obtain rfl := Option.some.inj hstep
    exact h.call policy
  | request ticket =>
    rw [apply] at hstep
    split at hstep
    case h_2 => exact nomatch hstep
    case h_1 call hcall =>
      split at hstep
      case h_1 hpolicy hphase =>
        split at hstep
        case isTrue => exact nomatch hstep
        case isFalse hslots =>
          obtain rfl := Option.some.inj hstep
          exact h.request hcall hpolicy hphase hslots
      case h_2 hpolicy hphase =>
        obtain rfl := Option.some.inj hstep
        exact h.enter hcall (.inl ⟨hphase, hpolicy, rfl⟩)
      case h_3 => exact nomatch hstep
  | enter ticket =>
    obtain ⟨call, hcall, hphase, rfl⟩ := at_phase hstep
    exact h.enter hcall (.inr ⟨hphase, rfl⟩)
  | ends ticket failed =>
    obtain ⟨call, hcall, hphase, rfl⟩ := at_phase hstep
    exact h.ends hcall hphase failed
  | leave ticket =>
    obtain ⟨call, hcall, hphase, rfl⟩ := at_phase hstep
    exact h.leave hcall hphase
  | await ticket =>
    obtain ⟨call, hcall, hphase, rfl⟩ := at_phase hstep
    exact h.await hcall hphase
  | finish ticket =>
    obtain ⟨call, hcall, hphase, rfl⟩ := at_phase hstep
    exact h.finish hcall hphase

theorem start (maxParallel : Nat) : Inv (max 1 maxParallel) (start maxParallel) :=
  ⟨⟨rfl, rfl, rfl, rfl, nofun⟩, ⟨rfl, fun _ _ hcall => (nomatch hcall),
    fun _ _ hcall => (nomatch hcall), Nat.le_refl 0, rfl, rfl, fun _ _ hcall => (nomatch hcall)⟩,
    fun _ _ hcall => nomatch hcall⟩

/-- A run keeps the barrier. -/
theorem run {maxParallel : Nat} {events : List Event}
    (h : Steps Runs (Barrier.start maxParallel) events s) : Inv (max 1 maxParallel) s :=
  h.invariant (fun _ _ _ hinv hstep => hinv.step hstep) (.start maxParallel)

/-- A call that runs alone runs alone. -/
theorem alone (h : Inv slots s) {ticket other : Nat} {call call' : Call}
    (hcall : s.calls[ticket]? = some call) (hcall' : s.calls[other]? = some call')
    (hrunning : call.phase = .running) (hrunning' : call'.phase = .running)
    (hpolicy : call.policy = .exclusive) : other = ticket := by
  have hinside : call.inside .exclusive = true := by simp [Call.inside, hpolicy, hrunning]
  have hactive : s.exclusiveActive = true := by
    have hpos : 0 < s.exclusiveActive.toNat := by
      rw [h.counts.exclusive]
      exact List.countP_pos_iff.mpr ⟨call, List.mem_of_getElem? hcall, hinside⟩
    cases hcase : s.exclusiveActive with
    | true => rfl
    | false => exact absurd hpos (by rw [hcase]; exact Nat.lt_irrefl 0)
  cases hpolicy' : call'.policy with
  | safe =>
    have hnone := h.counts.safe.symm.trans (h.counts.apart hactive)
    exact absurd (by simp [Call.inside, hpolicy', hrunning'])
      (List.countP_eq_zero.mp hnone call' (List.mem_of_getElem? hcall'))
  | exclusive =>
    by_contra hne
    -- With this call out of the way, nobody is left inside.
    have hone : s.calls.countP (Call.inside .exclusive) = 1 := by rw [← h.counts.exclusive, hactive]; rfl
    have hleft := countP_put hcall {call with phase := .released} (Call.inside .exclusive)
    rw [hinside, hone] at hleft
    have hzero : (s.put ticket {call with phase := .released}).calls.countP (Call.inside .exclusive) = 0 := by
      have hlast : Call.inside .exclusive {call with phase := .released} = false := by simp [Call.inside]
      rw [hlast, Bool.toNat_true, Bool.toNat_false] at hleft
      omega
    have hmem : call' ∈ (s.put ticket {call with phase := .released}).calls := by
      refine List.mem_of_getElem? (i := other) ?_
      rw [State.put]
      dsimp only
      rw [List.getElem?_set_ne (Ne.symm hne), hcall']
    exact absurd (by simp [Call.inside, hpolicy', hrunning']) (List.countP_eq_zero.mp hzero call' hmem)

/-- A call that is not released, when no body runs: some section can go on. -/
theorem not_stuck (h : Inv slots s) (hslots : 0 < slots) (hreturned : ∀ call ∈ s.calls, call.phase ≠ .running)
    (hleft : ∃ call ∈ s.calls, call.phase ≠ .released) :
    ∃ event s', (∀ policy, event ≠ .call policy) ∧ apply s event = some s' := by
  by_contra hnone
  have hdead : ∀ event, (∀ policy, event ≠ .call policy) → apply s event = none := by
    intro event hevent
    refine Option.eq_none_iff_forall_ne_some.mpr fun s' hs' => hnone ⟨event, s', hevent, hs'⟩
  -- Where the calls are.
  have hwhere : ∀ (ticket : Nat) (call : Call), s.calls[ticket]? = some call →
      call.phase = .arrived ∧ call.policy = .safe ∧ s.safeSlots = 0 ∨
      call.phase = .slot .blocked ∨ call.phase = .result .blocked ∨ call.phase = .released := by
    intro ticket call hcall
    cases hphase : call.phase with
    | arrived =>
      have hrequest := hdead (.request ticket) nofun
      cases hpolicy : call.policy with
      | safe =>
        refine .inl ⟨rfl, rfl, ?_⟩
        by_contra hfree
        simp [apply, hcall, hpolicy, hphase, hfree] at hrequest
      | exclusive => simp [apply, hcall, hpolicy, hphase] at hrequest
    | slot wait =>
      cases wait with
      | check =>
        have henter := hdead (.enter ticket) nofun
        simp [apply, hcall, hphase] at henter
      | blocked => exact .inr (.inl rfl)
    | running => exact absurd hphase (hreturned call (List.mem_of_getElem? hcall))
    | leaving =>
      have hleave := hdead (.leave ticket) nofun
      simp [apply, hcall, hphase] at hleave
    | result wait =>
      cases wait with
      | check =>
        have hawait := hdead (.await ticket) nofun
        simp [apply, hcall, hphase] at hawait
      | blocked => exact .inr (.inr (.inl rfl))
    | turn =>
      have hfinish := hdead (.finish ticket) nofun
      simp [apply, hcall, hphase] at hfinish
    | released => exact .inr (.inr (.inr rfl))
  have hall : ∀ {f : Call → Bool}, (∀ (ticket : Nat) (call : Call), s.calls[ticket]? = some call →
      f call = false) → s.calls.countP f = 0 := by
    intro f hf
    refine List.countP_eq_zero.mpr fun call hcall => ?_
    obtain ⟨ticket, hticket⟩ := List.mem_iff_getElem?.mp hcall
    exact Bool.eq_false_iff.mp (hf ticket call hticket)
  have hinside : ∀ policy, s.calls.countP (Call.inside policy) = 0 := by
    refine fun policy => hall fun ticket call hcall => ?_
    obtain ⟨hphase, -⟩ | hphase | hphase | hphase := hwhere ticket call hcall <;> simp [Call.inside, hphase]
  have hsafe : s.activeSafe = 0 := h.counts.safe.trans (hinside .safe)
  have hactive : s.exclusiveActive = false := by
    have hzero := h.counts.exclusive.trans (hinside .exclusive)
    cases hcase : s.exclusiveActive with
    | false => rfl
    | true => exact nomatch (congrArg Bool.toNat hcase).symm.trans hzero
  -- An exclusive call that waits for a slot would be let in, and then a safe one.
  have hslot : ∀ (ticket : Nat) (call : Call), s.calls[ticket]? = some call → call.phase ≠ .slot .blocked := by
    have hexclusive : ∀ (ticket : Nat) (call : Call), s.calls[ticket]? = some call →
        call.policy = .exclusive → call.phase ≠ .slot .blocked := by
      intro ticket call hcall hpolicy hphase
      have hadmits := (h.woken ticket call hcall).1 hphase
      rw [hpolicy] at hadmits
      exact nomatch hadmits.symm.trans (admits_exclusive.mpr ⟨hactive, hsafe⟩)
    have hwaiting : s.exclusiveWaiting = 0 := by
      refine h.counts.waiting.trans (hall fun ticket call hcall => ?_)
      refine Bool.eq_false_iff.mpr fun hwaits => ?_
      obtain ⟨hpolicy, hphase⟩ : call.policy = .exclusive ∧ call.phase = .slot .blocked := by
        obtain ⟨hphase, -⟩ | hphase | hphase | hphase := hwhere ticket call hcall <;>
          rcases call with ⟨_ | _, phase, _, _⟩ <;> cases hphase <;> first | exact ⟨rfl, rfl⟩ | exact nomatch hwaits
      exact hexclusive ticket call hcall hpolicy hphase
    intro ticket call hcall hphase
    cases hpolicy : call.policy with
    | exclusive => exact hexclusive ticket call hcall hpolicy hphase
    | safe =>
      have hadmits := (h.woken ticket call hcall).1 hphase
      rw [hpolicy] at hadmits
      exact nomatch hadmits.symm.trans (admits_safe.mpr ⟨hactive, hwaiting⟩)
  -- No slot of the semaphore is taken, so no safe call waits for one either.
  have hfree : s.safeSlots ≠ 0 := by
    have hholds : s.calls.countP Call.holds = 0 := by
      refine hall fun ticket call hcall => ?_
      obtain ⟨hphase, -⟩ | hphase | hphase | hphase := hwhere ticket call hcall
      · simp [Call.holds, hphase]
      · exact absurd hphase (hslot ticket call hcall)
      · simp [Call.holds, hphase]
      · simp [Call.holds, hphase]
    have hcount := h.counts.slots
    omega
  -- The call whose turn it is waits for its turn.
  obtain ⟨call, hcall, hphase⟩ := hleft
  obtain ⟨ticket, hticket⟩ := List.mem_iff_getElem?.mp hcall
  have hnext : s.nextResult < s.calls.length := by
    have hge : ¬ ticket < s.nextResult := fun hlt => hphase ((h.line.released ticket call hticket).mpr hlt)
    exact Nat.lt_of_le_of_lt (Nat.not_lt.mp hge) (List.getElem?_eq_some_iff.mp hticket).1
  obtain ⟨first, hfirst⟩ : ∃ first, s.calls[s.nextResult]? = some first := ⟨_, List.getElem?_eq_getElem hnext⟩
  obtain ⟨-, -, hzero⟩ | hphase | hphase | hphase := hwhere s.nextResult first hfirst
  · exact hfree hzero
  · exact hslot s.nextResult first hfirst hphase
  · exact (h.woken s.nextResult first hfirst).2 hphase rfl
  · exact absurd ((h.line.released s.nextResult first hfirst).mp hphase) (Nat.lt_irrefl _)

end Inv

/-- The barrier holds in every run: a body that runs exclusively runs alone, no more safe ones run than are
allowed, a safe call that has started has let every exclusive call go first that was waiting when it came,
the results are released in the order of their tickets, each once, and once every running body has returned,
a run with a call that is not released goes on. -/
theorem barrier_holds {maxParallel : Nat} {events : List Event} {s : State}
    (h : Steps Runs (start maxParallel) events s) :
    (∀ (ticket other : Nat) (call call' : Call), s.calls[ticket]? = some call →
      s.calls[other]? = some call' → call.phase = .running → call'.phase = .running →
      call.policy = .exclusive → other = ticket) ∧
    s.calls.countP (fun call => call.policy = .safe ∧ call.phase = .running) ≤ max 1 maxParallel ∧
    (∀ (ticket other : Nat) (call : Call), s.calls[ticket]? = some call → call.policy = .safe →
      call.started = true → other ∈ call.behind →
      ∃ call' : Call, s.calls[other]? = some call' ∧ call'.policy = .exclusive ∧ call'.started = true) ∧
    s.results = List.range s.nextResult ∧
    (∀ (ticket : Nat) (call : Call), s.calls[ticket]? = some call →
      s.results.count ticket = if call.phase = .released then 1 else 0) ∧
    ((∀ call ∈ s.calls, call.phase ≠ .running) → (∃ call ∈ s.calls, call.phase ≠ .released) →
      ∃ event s', (∀ policy, event ≠ .call policy) ∧ Runs s event s') := by
  have hinv := Inv.run h
  refine ⟨fun ticket other call call' hcall hcall' hrunning hrunning' hpolicy =>
    hinv.alone hcall hcall' hrunning hrunning' hpolicy, ?_,
    fun ticket other call hcall hsafe hstarted hother => ?_, hinv.line.results, fun ticket call hcall => ?_,
    hinv.not_stuck (Nat.lt_of_lt_of_le Nat.one_pos (Nat.le_max_left ..))⟩
  · -- A safe body runs in a slot of the semaphore.
    have hheld : s.calls.countP
        (fun call => call.policy = .safe ∧ call.phase = .running) ≤ s.calls.countP Call.holds := by
      refine List.countP_mono_left fun call _ hrunning => ?_
      obtain ⟨hpolicy, hphase⟩ := of_decide_eq_true hrunning
      simp [Call.holds, hpolicy, hphase]
    exact Nat.le_trans hheld (Nat.le_of_add_left_le (Nat.le_of_eq hinv.counts.slots))
  · obtain ⟨call', hcall', hpolicy, -, hlater⟩ := hinv.line.behind ticket call hcall other hother
    exact ⟨call', hcall', hpolicy, hlater hsafe hstarted⟩
  · rw [hinv.line.results, List.count_range]
    exact if_congr (hinv.line.released ticket call hcall).symm rfl rfl

/-- Two safe calls at once, an exclusive one that waits for them, and a safe one that comes after it. -/
def mixed : List Event :=
  [.call .safe, .call .safe, .call .exclusive, .request 0, .enter 0, .request 1, .enter 1,
    .request 2, .ends 1 true, .leave 1, .await 1, .call .safe,
    .request 3, .enter 3, .ends 0 false, .leave 0]

theorem barrier_holds_mixed : ∃ s, Steps Runs (start 2) mixed s ∧ s.results = List.range s.nextResult := by
  obtain ⟨s, hs⟩ := Option.isSome_iff_exists.mp (show (mixed.foldlM apply (start 2)).isSome = true by decide +kernel)
  have hrun := Steps.of_foldlM hs
  exact ⟨s, hrun, (barrier_holds hrun).2.2.2.1⟩

end Galaris.Harness.Barrier
