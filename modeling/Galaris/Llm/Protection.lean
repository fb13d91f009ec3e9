import Galaris.Llm.Admission

/-! The places of the dialogue classes.

With three places or more, background calls leave two of them and a dialogue class leaves one
(`Protected`); then a voice call, or a text call, is eligible where none is active (`Serves`). Grants to
voice and text keep this. A background grant looks at the other background calls only: it takes the
place of voice where text has the others, and the place of text where voice has (`borrowsPlace`). -/
namespace Galaris.Llm.Scheduler

open Transition Loop

namespace Queue

/-- A voice call is eligible where none is active, and so is a text call. -/
def Serves (queue : Queue) : Prop :=
  (queue.count .voice = 0 → queue.eligible .voice = true) ∧ (queue.count .text = 0 → queue.eligible .text = true)

structure Protected (queue : Queue) : Prop where
  background : queue.count .background ≤ queue.limit - 2
  text : queue.count .text + queue.count .background ≤ queue.limit - 1
  voice : queue.count .voice + queue.count .background ≤ queue.limit - 1

variable {queue next : Queue}

/-- Every permit is of one class. -/
theorem active_length (queue : Queue) :
    queue.active.length = queue.count .voice + queue.count .text + queue.count .background := by
  unfold count
  induction queue.active with
  | nil => rfl
  | cons permit rest ih =>
    rw [List.length_cons, List.countP_cons, List.countP_cons, List.countP_cons, ih]
    cases permit.priority <;> simp <;> omega

theorem eligible_iff (h : 3 ≤ queue.limit) (priority : Priority) :
    queue.eligible priority = true ↔ queue.active.length < queue.limit ∧
      if priority = .background then queue.count .background < queue.limit - 2
      else queue.count priority + queue.count .background < queue.limit - 1 := by
  unfold eligible
  rw [if_neg (by omega : queue.limit ≠ 0)]
  by_cases hfull : queue.limit ≤ queue.active.length
  · rw [if_pos hfull]
    exact ⟨nofun, fun h => absurd h.1 (by omega)⟩
  · rw [if_neg hfull, if_neg (by omega : queue.limit ≠ 1)]
    dsimp only
    split
    · rw [decide_eq_true_eq, Nat.max_eq_right (by omega)]
      exact ⟨fun hless => ⟨by omega, hless⟩, fun h => h.2⟩
    · rw [if_neg (by omega : queue.limit ≠ 2), decide_eq_true_eq]
      exact ⟨fun hless => ⟨by omega, hless⟩, fun h => h.2⟩

theorem Protected.serves (h : queue.Protected) (hlimit : 3 ≤ queue.limit) : queue.Serves := by
  obtain ⟨hbackground, htext, hvoice⟩ := h
  have hlength := queue.active_length
  constructor
  · intro hnone
    rw [eligible_iff hlimit, if_neg nofun]
    omega
  · intro hnone
    rw [eligible_iff hlimit, if_neg nofun]
    omega

/-- Calls that end take no place. -/
theorem Protected.of_sublist (h : queue.Protected) (hlimit : next.limit = queue.limit)
    (hactive : next.active.Sublist queue.active) :
    next.Protected := by
  have hcount : ∀ priority, next.count priority ≤ queue.count priority := fun _ => hactive.countP_le
  obtain ⟨hbackground, htext, hvoice⟩ := h
  have hv := hcount .voice
  have ht := hcount .text
  have hb := hcount .background
  rw [← hlimit] at hbackground htext hvoice
  exact ⟨by omega, by omega, by omega⟩

/-- A grant of the place that a dialogue class is left. -/
def takesLast (queue : Queue) (priority : Priority) : Bool :=
  priority == .background &&
    (queue.limit ≤ queue.count .text + queue.count .background + 1 ||
      queue.limit ≤ queue.count .voice + queue.count .background + 1)

/-- A grant that takes no last place keeps the places. -/
theorem Protected.grant (h : queue.Protected) (hlimit : 3 ≤ queue.limit)
    (hnext : next.limit = queue.limit) {permit : Permit}
    (hactive : next.active = queue.active ++ [permit]) (heligible : queue.eligible permit.priority = true)
    (hkept : queue.takesLast permit.priority = false) : next.Protected := by
  have hcount : ∀ priority,
      next.count priority = queue.count priority + if permit.priority = priority then 1 else 0 := by
    intro priority
    unfold count
    rw [hactive, List.countP_append, List.countP_singleton]
    simp only [decide_eq_true_eq]
  rw [eligible_iff hlimit] at heligible
  obtain ⟨hbackground, htext, hvoice⟩ := h
  have hv := hcount .voice
  have ht := hcount .text
  have hb := hcount .background
  cases hpriority : permit.priority with
  | voice =>
    rw [hpriority] at hv ht hb heligible
    simp only [reduceCtorEq, if_false, if_true] at hv ht hb heligible
    exact ⟨by omega, by omega, by omega⟩
  | text =>
    rw [hpriority] at hv ht hb heligible
    simp only [reduceCtorEq, if_false, if_true] at hv ht hb heligible
    exact ⟨by omega, by omega, by omega⟩
  | background =>
    rw [hpriority] at hv ht hb heligible hkept
    simp only [reduceCtorEq, if_false, if_true] at hv ht hb heligible
    unfold takesLast at hkept
    simp only [beq_self_eq_true, Bool.true_and, Bool.or_eq_false_iff, decide_eq_false_iff_not] at hkept
    exact ⟨by omega, by omega, by omega⟩

/-- A grant that takes one leaves a class without its place, and nothing is eligible then. -/
theorem starved_of_takesLast (hlimit : 3 ≤ queue.limit) (hnext : next.limit = queue.limit) {permit : Permit}
    (hactive : next.active = queue.active ++ [permit]) (heligible : queue.eligible permit.priority = true)
    (htakes : queue.takesLast permit.priority = true) :
    (∀ priority, next.eligible priority = false) ∧ ¬ next.Serves := by
  have hcount : ∀ priority,
      next.count priority = queue.count priority + if permit.priority = priority then 1 else 0 := by
    intro priority
    unfold count
    rw [hactive, List.countP_append, List.countP_singleton]
    simp only [decide_eq_true_eq]
  unfold takesLast at htakes
  rw [Bool.and_eq_true, beq_iff_eq, Bool.or_eq_true, decide_eq_true_eq, decide_eq_true_eq] at htakes
  obtain ⟨hpriority, htakes⟩ := htakes
  rw [eligible_iff hlimit] at heligible
  have hlength := queue.active_length
  have hlength' := next.active_length
  have hv := hcount .voice
  have ht := hcount .text
  have hb := hcount .background
  rw [hpriority] at hv ht hb
  simp only [reduceCtorEq, if_false, if_true] at hv ht hb
  have hfull : ∀ priority, next.eligible priority = false := by
    intro priority
    rw [← Bool.not_eq_true, eligible_iff (hnext ▸ hlimit)]
    omega
  refine ⟨hfull, fun hserves => ?_⟩
  obtain htakes | htakes := htakes
  · have hnone : next.count .voice = 0 := by omega
    have heligible' := hserves.1 hnone
    rw [hfull] at heligible'
    cases heligible'
  · have hnone : next.count .text = 0 := by omega
    have heligible' := hserves.2 hnone
    rw [hfull] at heligible'
    cases heligible'

end Queue

/-! ### Drains -/

/-- The next grant of the drain takes the last place that is left to a class. -/
def borrowsPlace (provider : Id) (s : State) : Bool :=
  match s.queue? provider with
  | none => false
  | some queue =>
    match chosen s.clock queue with
    | none => false
    | some ticket => s.futures ticket.id ≠ .cancelled && queue.takesLast ticket.priority

/-- One of the grants to the provider does, in a drain of these providers. -/
def drainBorrows (provider : Id) (s : State) : List Id → Bool
  | [] => false
  | other :: rest =>
    (other == provider && meets (State.grantNext provider) (borrowsPlace provider) (s.turns provider) s) ||
      drainBorrows provider (s.drainProvider other) rest

/-- A step that grants such a place. -/
def borrows (provider : Id) (s : State) : Event → Bool
  | .drain => drainBorrows provider {s with scheduled := false} (s.queues.map (·.provider))
  | _ => false

/-- The limit of the provider is the one that it has. -/
def Constant (provider : Id) (limit : Nat) (s : State) : Event → Prop
  | .configure other new => other = provider → new = limit
  | .enqueue other new _ _ => other = provider → s.queue? provider = none → new = limit
  | _ => True

/-- The provider has this limit, and the dialogue classes have their places. -/
def Protects (provider : Id) (limit : Nat) (s : State) : Prop :=
  ∀ queue, s.queue? provider = some queue → queue.limit = limit ∧ queue.Protected

variable {s s' : State} {provider : Id} {limit : Nat}

theorem Protects.of_queues (h : Protects provider limit s) (heq : s'.queues = s.queues) :
    Protects provider limit s' := by
  intro queue hqueue
  unfold State.queue? at hqueue
  rw [heq] at hqueue
  exact h queue hqueue

theorem Protects.schedule (h : Protects provider limit s) : Protects provider limit s.schedule :=
  h.of_queues (State.schedule_fields s).1

theorem Protects.put (h : Protects provider limit s) {queue : Queue}
    (hqueue : queue.provider = provider → queue.limit = limit ∧ queue.Protected) :
    Protects provider limit (s.put queue) := by
  intro found hfound
  rw [State.queue?_put] at hfound
  obtain ⟨old, hold, rfl⟩ := Option.map_eq_some_iff.mp hfound
  split
  case isTrue heq => exact hqueue heq.symm
  case isFalse => exact h old hold

/-- A queue is written that has no more calls than it had. -/
theorem Protects.shrink (h : Protects provider limit s) {other : Id} {queue next : Queue}
    (hqueue : s.queue? other = some queue)
    (hprovider : next.provider = queue.provider) (hlimit : next.limit = queue.limit)
    (hactive : next.active.Sublist queue.active) :
    Protects provider limit (s.put next) := by
  refine h.put fun heq => ?_
  obtain rfl : other = provider := (State.queue?_eq_some hqueue).2.symm.trans (hprovider.symm.trans heq)
  obtain ⟨hold, hprotected⟩ := h queue hqueue
  exact ⟨hlimit.trans hold, hprotected.of_sublist hlimit hactive⟩

theorem Protects.configure (h : Protects provider limit s) {other : Id} {new : Int}
    (hconstant : other = provider → new = limit)
    (hs' : s.configure other new = some s') : Protects provider limit s' := by
  unfold State.configure at hs'
  split at hs'
  case isTrue => cases hs'
  case isFalse =>
    split at hs'
    case h_1 hnone =>
      cases hs'
      refine schedule fun queue hqueue => ?_
      unfold State.queue? at hqueue
      rw [List.find?_append, Option.or_eq_some_iff] at hqueue
      obtain hqueue | ⟨-, hqueue⟩ := hqueue
      · exact h queue hqueue
      · rw [List.find?_singleton] at hqueue
        split at hqueue
        case isFalse => cases hqueue
        case isTrue heq =>
          cases hqueue
          refine ⟨?_, Nat.zero_le _, Nat.zero_le _, Nat.zero_le _⟩
          show new.toNat = limit
          rw [hconstant (of_decide_eq_true heq), Int.toNat_natCast]
    case h_2 queue hqueue =>
      cases hs'
      refine schedule (h.put fun heq => ?_)
      have hother : other = provider := (State.queue?_eq_some hqueue).2.symm.trans heq
      have hnew : new.toNat = limit := by rw [hconstant hother, Int.toNat_natCast]
      obtain ⟨hlimit, hprotected⟩ := h queue (hother ▸ hqueue)
      exact ⟨hnew, hprotected.of_sublist (hnew.trans hlimit.symm) (List.Sublist.refl _)⟩

theorem Protects.release (h : Protects provider limit s) (permit : Permit) :
    Protects provider limit (s.release permit) := by
  unfold State.release
  split
  case isTrue => exact h
  case isFalse =>
    dsimp only
    split
    case h_1 => exact h.of_queues rfl
    case h_2 queue hqueue =>
      have hkept : Protects provider limit {s with released := s.released ++ [permit.id]} := h.of_queues rfl
      exact schedule (hkept.shrink hqueue rfl rfl List.erase_sublist)

theorem Protects.enqueue (h : Protects provider limit s) {other : Id} {new : Int}
    {priority : Priority} {owner : Option String}
    (hconstant : other = provider → s.queue? provider = none → new = limit)
    (hs' : s.enqueue other new priority owner = some s') : Protects provider limit s' := by
  obtain ⟨s₁, hs₁, hs'⟩ := Option.bind_eq_some_iff.mp hs'
  have h₁ : Protects provider limit s₁ := by
    unfold State.known at hs₁
    split at hs₁
    case isTrue hnone =>
      exact h.configure (fun heq => hconstant heq (heq ▸ Option.isNone_iff_eq_none.mp hnone)) hs₁
    case isFalse =>
      cases hs₁
      exact h
  obtain ⟨queue, hqueue, rfl⟩ := Option.map_eq_some_iff.mp hs'
  let ticket : Ticket := ⟨s₁.next, other, priority, owner, s₁.clock⟩
  have hput : Protects provider limit (s₁.put {queue with waiting := queue.waiting ++ [ticket]}) :=
    h₁.shrink hqueue rfl rfl (List.Sublist.refl _)
  exact schedule (hput.of_queues rfl)

theorem Protects.cancel (h : Protects provider limit s) {ticket : Ticket} (hs' : s.cancel ticket = some s') :
    Protects provider limit s' := by
  obtain ⟨queue, hqueue, rfl⟩ := Option.map_eq_some_iff.mp hs'
  have hput : Protects provider limit (s.put {queue with waiting := queue.waiting.erase ticket}) :=
    h.shrink hqueue rfl rfl (List.Sublist.refl _)
  have hclosed : Protects provider limit
      ((s.put {queue with waiting := queue.waiting.erase ticket}).closeFuture ticket) := by
    unfold State.closeFuture
    split
    · exact hput.release _
    · exact hput.of_queues rfl
  exact schedule (hclosed.of_queues rfl)

/-- A turn of another provider. -/
theorem queue?_grantNext {other : Id} (hne : provider ≠ other) (hs' : s.grantNext other = some s') :
    s'.queue? provider = s.queue? provider := by
  obtain ⟨queue, ticket, hqueue, -, ⟨-, rfl⟩ | ⟨-, rfl⟩⟩ := State.grantNext_eq_some hs'
  · exact State.queue?_put_of_ne ((State.queue?_eq_some hqueue).2.symm ▸ hne)
  · exact State.queue?_put_of_ne ((State.queue?_eq_some hqueue).2.symm ▸ hne)

theorem queue?_drainProvider {other : Id} (hne : provider ≠ other) :
    (s.drainProvider other).queue? provider = s.queue? provider :=
  repeated_invariant (P := fun t => t.queue? provider = s.queue? provider)
    (fun _ _ ht hs' => (queue?_grantNext hne hs').trans ht) _ rfl

/-- What a turn does to the queue of its provider. -/
theorem grantNext_queue? (hs' : s.grantNext provider = some s') : ∃ queue ticket next, s.queue? provider = some queue ∧
    chosen s.clock queue = some ticket ∧ s'.queue? provider = some next ∧ next.limit = queue.limit ∧
      ((s.futures ticket.id = .cancelled ∧ next.active = queue.active) ∨ (s.futures ticket.id ≠ .cancelled ∧
        ∃ permit : Permit, permit.priority = ticket.priority ∧ next.active = queue.active ++ [permit])) := by
  obtain ⟨queue, ticket, hqueue, hchosen, hstep⟩ := State.grantNext_eq_some hs'
  have hof := (State.queue?_eq_some hqueue).2
  have hfound : ∀ next : Queue, next.provider = queue.provider → (s.put next).queue? provider = some next := by
    intro next heq
    have hself := @State.queue?_put_self s queue next (by rw [heq, hof]; exact hqueue)
    rwa [heq, hof] at hself
  obtain ⟨hcancelled, rfl⟩ | ⟨hopen, rfl⟩ := hstep
  · exact ⟨queue, ticket, _, hqueue, hchosen, hfound _ rfl, rfl, .inl ⟨hcancelled, rfl⟩⟩
  · exact ⟨queue, ticket, _, hqueue, hchosen, hfound _ rfl, rfl, .inr ⟨hopen, _, rfl, rfl⟩⟩

theorem Protects.grantNext (hlimit : 3 ≤ limit) (h : Protects provider limit s)
    (hkept : borrowsPlace provider s = false)
    (hs' : s.grantNext provider = some s') : Protects provider limit s' := by
  obtain ⟨queue, ticket, next, hqueue, hchosen, hnext, hsame, hstep⟩ := grantNext_queue? hs'
  intro found hfound
  obtain rfl : next = found := Option.some.inj (hnext.symm.trans hfound)
  obtain ⟨hqlimit, hprotected⟩ := h queue hqueue
  refine ⟨hsame.trans hqlimit, ?_⟩
  obtain ⟨-, hactive⟩ | ⟨hopen, permit, hpriority, hactive⟩ := hstep
  · exact hprotected.of_sublist hsame (hactive ▸ List.Sublist.refl _)
  · refine hprotected.grant (hqlimit ▸ hlimit) hsame hactive ?_ ?_
    · rw [hpriority]
      exact (chosen_eq_some hchosen).2
    · unfold borrowsPlace at hkept
      rw [hqueue] at hkept
      dsimp only at hkept
      rw [hchosen] at hkept
      dsimp only at hkept
      rw [decide_eq_true hopen, Bool.true_and] at hkept
      rwa [hpriority]

theorem Protects.drainEach (hlimit : 3 ≤ limit) {providers : List Id} (h : Protects provider limit s)
    (hkept : drainBorrows provider s providers = false) : Protects provider limit (s.drainEach providers) := by
  induction providers generalizing s with
  | nil => exact h
  | cons other rest ih =>
    unfold drainBorrows at hkept
    obtain ⟨hturns, hrest⟩ := Bool.or_eq_false_iff.mp hkept
    refine ih ?_ hrest
    by_cases heq : other = provider
    · subst heq
      rw [beq_self_eq_true, Bool.true_and] at hturns
      exact repeated_unmarked (P := Protects other limit)
        (fun _ _ h hkept hs' => h.grantNext hlimit hkept hs') _ hturns h
    · intro queue hqueue
      rw [queue?_drainProvider (Ne.symm heq)] at hqueue
      exact h queue hqueue

/-- A step that takes no last place keeps the places. -/
theorem apply_protects (hlimit : 3 ≤ limit) (h : Protects provider limit s) {event : Event}
    (hconstant : Constant provider limit s event)
    (hkept : borrows provider s event = false) (hs' : apply s event = some s') : Protects provider limit s' := by
  cases event with
  | configure other new => exact h.configure hconstant hs'
  | enqueue other new priority owner => exact h.enqueue hconstant hs'
  | cancel ticket =>
    unfold apply at hs'
    dsimp only at hs'
    split at hs'
    case isTrue => exact h.cancel hs'
    case isFalse => cases hs'
  | abandon ticket =>
    unfold apply at hs'
    dsimp only at hs'
    split at hs'
    case isTrue =>
      cases hs'
      exact h.of_queues rfl
    case isFalse => cases hs'
  | release permit =>
    unfold apply at hs'
    dsimp only at hs'
    split at hs'
    case isTrue =>
      cases hs'
      exact h.release permit
    case isFalse => cases hs'
  | drain =>
    unfold apply at hs'
    dsimp only at hs'
    split at hs'
    case isTrue =>
      cases hs'
      have hstart : Protects provider limit {s with scheduled := false} := h.of_queues rfl
      exact hstart.drainEach hlimit hkept
    case isFalse => cases hs'
  | tick nanoseconds =>
    cases hs'
    exact h.of_queues rfl

theorem queue?_drainEach {providers : List Id} (hnot : provider ∉ providers) :
    (s.drainEach providers).queue? provider = s.queue? provider := by
  induction providers generalizing s with
  | nil => rfl
  | cons other rest ih =>
    obtain ⟨hne, hrest⟩ := List.ne_and_not_mem_of_not_mem_cons hnot
    exact (ih hrest).trans (queue?_drainProvider hne)

theorem drainBorrows_of_not_mem {providers : List Id} (hnot : provider ∉ providers) :
    drainBorrows provider s providers = false := by
  induction providers generalizing s with
  | nil => rfl
  | cons other rest ih =>
    obtain ⟨hne, hrest⟩ := List.ne_and_not_mem_of_not_mem_cons hnot
    unfold drainBorrows
    rw [beq_false_of_ne (Ne.symm hne), Bool.false_and, Bool.false_or]
    exact ih hrest

/-- A turn that takes the last place of a class is the last one. -/
theorem starved_of_borrowsPlace (hlimit : ∀ queue, s.queue? provider = some queue → 3 ≤ queue.limit)
    (hborrows : borrowsPlace provider s = true) (hs' : s.grantNext provider = some s') :
    s'.grantNext provider = none ∧ ∃ queue, s'.queue? provider = some queue ∧ ¬ queue.Serves := by
  obtain ⟨queue, ticket, next, hqueue, hchosen, hnext, hsame, hstep⟩ := grantNext_queue? hs'
  unfold borrowsPlace at hborrows
  rw [hqueue] at hborrows
  dsimp only at hborrows
  rw [hchosen, Bool.and_eq_true, decide_eq_true_eq] at hborrows
  obtain ⟨hopen, htakes⟩ := hborrows
  obtain ⟨hcancelled, -⟩ | ⟨-, permit, hpriority, hactive⟩ := hstep
  · exact absurd hcancelled hopen
  · obtain ⟨hfull, hstarved⟩ := Queue.starved_of_takesLast (hlimit queue hqueue) hsame hactive
      (hpriority ▸ (chosen_eq_some hchosen).2) (hpriority ▸ htakes)
    refine ⟨?_, next, hnext, hstarved⟩
    unfold State.grantNext
    rw [hnext, Option.bind_eq_bind, Option.bind_some, chosen_eq_none hfull]
    rfl

/-- A drain that takes the last place of a class leaves the class without. -/
theorem starved_of_drainBorrows {providers : List Id} (hnodup : providers.Nodup)
    (hlimit : ∀ queue, s.queue? provider = some queue → 3 ≤ queue.limit)
    (hborrows : drainBorrows provider s providers = true) :
    ∃ queue, (s.drainEach providers).queue? provider = some queue ∧ ¬ queue.Serves := by
  induction providers generalizing s with
  | nil => cases hborrows
  | cons other rest ih =>
    obtain ⟨hother, hrest⟩ := List.nodup_cons.mp hnodup
    unfold drainBorrows at hborrows
    by_cases heq : other = provider
    · subst heq
      by_cases hturns : meets (State.grantNext other) (borrowsPlace other) (s.turns other) s = true
      · have hkept : ∀ t t' : State, (∀ queue, t.queue? other = some queue → 3 ≤ queue.limit) →
            t.grantNext other = some t' →
            ∀ queue, t'.queue? other = some queue → 3 ≤ queue.limit := by
          intro t t' ht hstep found hfound
          obtain ⟨queue, -, next, hqueue, -, hnext, hsame, -⟩ := grantNext_queue? hstep
          obtain rfl : next = found := Option.some.inj (hnext.symm.trans hfound)
          exact hsame ▸ ht queue hqueue
        obtain ⟨t, t', fuel, ht, hmarked, hstep, hrun⟩ := repeated_marked hkept _ hturns hlimit
        obtain ⟨hends, queue, hqueue, hstarved⟩ := starved_of_borrowsPlace ht hmarked hstep
        refine ⟨queue, ?_, hstarved⟩
        show ((s.drainProvider other).drainEach rest).queue? other = _
        rw [queue?_drainEach hother, State.drainProvider, hrun, repeated_none fuel hends]
        exact hqueue
      · rw [Bool.not_eq_true] at hturns
        rw [hturns, Bool.and_false, Bool.false_or, drainBorrows_of_not_mem hother] at hborrows
        cases hborrows
    · have hkept : (s.drainProvider other).queue? provider = s.queue? provider := queue?_drainProvider (Ne.symm heq)
      rw [beq_false_of_ne heq, Bool.false_and, Bool.false_or] at hborrows
      refine ih hrest (fun queue hqueue => hlimit queue (hkept.symm.trans hqueue)) hborrows

/-! ### Limits -/

/-- The calls of a provider are those it had, or fit its limit. -/
theorem grantNext_fits {active : List Permit} (h : ∀ queue, s.queue? provider = some queue → queue.active = active ∨
      (0 < queue.limit → queue.active.length ≤ queue.limit)) {other : Id} (hs' : s.grantNext other = some s') :
    ∀ queue, s'.queue? provider = some queue → queue.active = active ∨
        (0 < queue.limit → queue.active.length ≤ queue.limit) := by
  intro found hfound
  by_cases heq : provider = other
  · subst heq
    obtain ⟨queue, ticket, next, hqueue, hchosen, hnext, hsame, hstep⟩ := grantNext_queue? hs'
    obtain rfl : next = found := Option.some.inj (hnext.symm.trans hfound)
    obtain ⟨-, hactive⟩ | ⟨-, permit, -, hactive⟩ := hstep
    · rw [hactive, hsame]
      exact h queue hqueue
    · refine .inr fun hpos => ?_
      have heligible := (chosen_eq_some hchosen).2
      unfold Queue.eligible at heligible
      rw [if_neg (by omega : queue.limit ≠ 0)] at heligible
      rw [hactive, hsame, List.length_append, List.length_singleton]
      split at heligible
      case isTrue => cases heligible
      case isFalse hless => omega
  · rw [queue?_grantNext heq hs'] at hfound
    exact h found hfound

/-- A drain that grants permits stays within the limit. -/
theorem drain_fits {queue queue' : Queue} (hqueue : s.queue? provider = some queue)
    (hqueue' : s.drain.queue? provider = some queue')
    (hpos : 0 < queue'.limit) (hgrants : queue.active ≠ queue'.active) : queue'.active.length ≤ queue'.limit := by
  have hfits : ∀ found, s.drain.queue? provider = some found → found.active = queue.active ∨
      (0 < found.limit → found.active.length ≤ found.limit) := by
    refine State.drain_invariant (P := fun t => ∀ found, t.queue? provider = some found → found.active = queue.active ∨
      (0 < found.limit → found.active.length ≤ found.limit))
      (fun found hfound => .inl ?_) fun _ _ _ h hs' => grantNext_fits h hs'
    rw [Option.some.inj (hfound.symm.trans hqueue)]
  obtain hsame | hlimit := hfits queue' hqueue'
  · exact absurd hsame.symm hgrants
  · exact hlimit hpos

/-! ### Runs -/

theorem run_inv {events : List Event} (hrun : Steps (Executes apply) start events s) : Inv s :=
  hrun.invariant (P := Inv) (fun _ _ _ h hs' => apply_inv h hs') start_inv

/-- Steps that take no last place of the provider, whose limit is constant. -/
abbrev Kept (provider : Id) (limit : Nat) : State → Event → State → Prop :=
  Guarded (Executes apply) fun s event => Constant provider limit s event ∧ borrows provider s event = false

/-- In every run: a drain that grants stays within the limit; a ticket has one permit at most; what was cancelled or
released keeps no place. With a constant limit of three or more a dialogue class without calls is served in every state,
where no background call takes its place; where one does, it is not. -/
theorem admission_while_not_borrowed (events : List Event) (s : State) :
    (Steps (Executes apply) start events s →
      (∀ provider queue queue', s.queue? provider = some queue →
        s.drain.queue? provider = some queue' → 0 < queue'.limit →
        queue.active ≠ queue'.active → queue'.active.length ≤ queue'.limit) ∧
      (∀ id permit permit', (id, permit) ∈ s.granted → (id, permit') ∈ s.granted → permit = permit') ∧
      (∀ id ∈ s.cancelled, ∀ queue ∈ s.queues,
        (∀ ticket ∈ queue.waiting, ticket.id ≠ id) ∧ ∀ permit ∈ queue.active, (id, permit) ∉ s.granted) ∧
      (∀ id, s.futures id = .cancelled → ∀ permit, (id, permit) ∉ s.granted) ∧
      ∀ queue ∈ s.queues, ∀ permit ∈ queue.active, permit.id ∉ s.released) ∧
    ∀ provider limit, 3 ≤ limit →
      (Steps (Kept provider limit) start events s → ∀ queue, s.queue? provider = some queue → queue.Serves) ∧
      (Steps (Executes apply) start events s → (∀ queue, s.queue? provider = some queue → queue.limit = limit) →
        ∀ event s', borrows provider s event = true → apply s event = some s' →
          ∃ queue, s'.queue? provider = some queue ∧ ¬ queue.Serves) := by
  refine ⟨fun hrun => ?_, fun provider limit hlimit => ⟨fun hrun queue hqueue => ?_, ?_⟩⟩
  · have hinv := run_inv hrun
    refine ⟨fun provider queue queue' hqueue hqueue' => drain_fits hqueue hqueue',
      fun id permit permit' hpermit hpermit' => ?_,
      fun id hid queue hqueue => ?_, fun id hcancelled permit hpermit => ?_, fun queue hqueue permit hpermit => ?_⟩
    · have hdone : Future.done permit = .done permit' :=
          (hinv.done (id, permit) hpermit).symm.trans (hinv.done (id, permit') hpermit')
      exact Future.done.inj hdone
    · obtain ⟨-, hnone, hdone⟩ := hinv.cancelled id hid
      refine ⟨hnone queue hqueue, fun permit hpermit hgranted => ?_⟩
      have hfuture := hinv.done _ hgranted
      obtain hcancelled | ⟨permit', hdone, hreleased⟩ := hdone
      · exact nomatch hcancelled.symm.trans hfuture
      · obtain rfl := Future.done.inj (hdone.symm.trans hfuture)
        exact ((hinv.active queue hqueue).2 _ hpermit).2.2 hreleased
    · exact nomatch hcancelled.symm.trans (hinv.done _ hpermit)
    · exact ((hinv.active queue hqueue).2 permit hpermit).2.2
  · have hprotects : Protects provider limit s :=
      hrun.invariant (P := Protects provider limit)
        (fun _ _ _ h hstep => apply_protects hlimit h hstep.1.1 hstep.1.2 hstep.2)
        fun queue hqueue => nomatch hqueue
    obtain ⟨rfl, hprotected⟩ := hprotects queue hqueue
    exact hprotected.serves hlimit
  · intro hrun hsame event s' hborrows hs'
    cases event with
    | drain =>
      unfold apply at hs'
      dsimp only at hs'
      split at hs'
      case isFalse => cases hs'
      case isTrue =>
        cases hs'
        exact starved_of_drainBorrows (run_inv hrun).providers
          (fun queue hqueue => hsame queue hqueue ▸ hlimit) hborrows
    | _ => cases hborrows

/-- Two text calls and a background call take the three places of a provider. -/
theorem background_takes_voice : ∃ events s queue, Steps (Executes apply) start events s ∧
    (∀ event ∈ events, ∀ provider limit, event ≠ .configure provider limit) ∧
    s.queue? 1 = some queue ∧ queue.limit = 3 ∧
      queue.count .voice = 0 ∧ queue.eligible .voice = false := by
  have hrun : ∃ s, [.enqueue 1 3 .text none, .enqueue 1 3 .text none, .enqueue 1 3 .background none,
      .drain].foldlM apply start = some s ∧
      ∃ queue, s.queue? 1 = some queue ∧ queue.limit = 3 ∧ queue.count .voice = 0 ∧ queue.eligible .voice = false :=
    ⟨_, rfl, _, rfl, rfl, rfl, rfl⟩
  obtain ⟨s, hrun, queue, hqueue, hlimit, hvoice, heligible⟩ := hrun
  refine ⟨_, s, queue, .of_foldlM hrun, ?_, hqueue, hlimit, hvoice, heligible⟩
  simp

end Galaris.Llm.Scheduler
