import Galaris.Llm.Scheduler
import Mathlib.Data.List.Nodup

/-! What an admission keeps.

In every run a grant stays within the limit, a ticket gets one permit at most, and neither a ticket
that was cancelled nor a permit that was released keeps a place (`Inv`). The place of a dialogue class
is protected for as long as no background call is granted that takes the last place that the other
class leaves it (`Protected`, `admission_while_not_borrowed`). -/
namespace Galaris.Llm.Scheduler

open Transition Loop

/-! ### Choosing -/

theorem foldl_mem {α : Type} (pick : α → α → Bool) (rest : List α) (best : α) :
    rest.foldl (fun best other => if pick other best then other else best) best ∈ best :: rest := by
  induction rest generalizing best with
  | nil => exact List.mem_cons_self
  | cons other rest ih =>
    rw [List.foldl_cons]
    split
    · exact List.mem_cons_of_mem _ (ih other)
    · obtain heq | hmem := List.mem_cons.mp (ih best)
      · rw [heq]
        exact List.mem_cons_self
      · exact List.mem_cons_of_mem _ (List.mem_cons_of_mem _ hmem)

theorem first_mem {key : Ticket → Nat × Nat × Nat} {tickets : List Ticket} {ticket : Ticket}
    (h : first key tickets = some ticket) :
    ticket ∈ tickets := by
  cases tickets with
  | nil => cases h
  | cons head rest =>
    cases h
    exact foldl_mem (fun other best => before (key other) (key best)) rest head

theorem chosen_eq_some {now : Nat} {queue : Queue} {ticket : Ticket} (h : chosen now queue = some ticket) :
    ticket ∈ queue.waiting ∧ queue.eligible ticket.priority = true := List.mem_filter.mp (first_mem h)

theorem chosen_eq_none {now : Nat} {queue : Queue}
    (h : ∀ priority, queue.eligible priority = false) : chosen now queue = none := by
  unfold chosen
  rw [List.filter_eq_nil_iff.mpr fun ticket _ => by rw [h]; exact Bool.false_ne_true]
  rfl

/-! ### Queues -/

namespace State

variable {s s' : State}

theorem queue?_eq_some {provider : Id} {queue : Queue} (h : s.queue? provider = some queue) :
    queue ∈ s.queues ∧ queue.provider = provider := by
  unfold queue? at h
  exact ⟨List.mem_of_find?_eq_some h, by simpa using List.find?_some h⟩

theorem mem_put {queue other : Queue} (h : other ∈ (s.put queue).queues) :
    other = queue ∨ (other ∈ s.queues ∧ other.provider ≠ queue.provider) := by
  obtain ⟨old, hold, heq⟩ := List.mem_map.mp h
  split at heq
  case isTrue => exact .inl heq.symm
  case isFalse hne => exact .inr ⟨heq ▸ hold, heq ▸ hne⟩

theorem put_providers (queue : Queue) : (s.put queue).queues.map (·.provider) = s.queues.map (·.provider) := by
  unfold put
  rw [List.map_map]
  refine List.map_congr_left fun other _ => ?_
  show (if other.provider = queue.provider then queue else other).provider = other.provider
  split
  case isTrue heq => exact heq.symm
  case isFalse => rfl

/-- The queue of a provider after a write. -/
theorem queue?_put (queue : Queue) (provider : Id) :
    (s.put queue).queue? provider =
      (s.queue? provider).map fun other => if provider = queue.provider then queue else other := by
  unfold queue? put
  dsimp only
  induction s.queues with
  | nil => rfl
  | cons other rest ih =>
    rw [List.map_cons, List.find?_cons, List.find?_cons, ih]
    by_cases hput : other.provider = queue.provider
    · rw [if_pos hput]
      by_cases hfound : queue.provider = provider
      · rw [decide_eq_true hfound, decide_eq_true (hput.trans hfound), Option.map_some, if_pos hfound.symm]
      · rw [decide_eq_false hfound, decide_eq_false (hput ▸ hfound)]
    · rw [if_neg hput]
      by_cases hfound : other.provider = provider
      · rw [decide_eq_true hfound, Option.map_some, if_neg (hfound ▸ hput)]
      · rw [decide_eq_false hfound]

theorem queue?_put_of_ne {queue : Queue} {provider : Id} (hne : provider ≠ queue.provider) :
    (s.put queue).queue? provider = s.queue? provider := by
  rw [queue?_put]
  simp only [if_neg hne, Option.map_id']

theorem queue?_put_self {old queue : Queue} (h : s.queue? queue.provider = some old) :
    (s.put queue).queue? queue.provider = some queue := by
  rw [queue?_put, h, Option.map_some, if_pos rfl]

theorem schedule_fields (s : State) :
    s.schedule.queues = s.queues ∧ s.schedule.futures = s.futures ∧ s.schedule.next = s.next ∧
    s.schedule.tickets = s.tickets ∧
      s.schedule.cancelled = s.cancelled ∧ s.schedule.granted = s.granted ∧ s.schedule.released = s.released := by
  unfold schedule
  split <;> exact ⟨rfl, rfl, rfl, rfl, rfl, rfl, rfl⟩

end State

/-! ### Places -/

/-- Tickets and permits are where they belong: what waits has no permit, a ticket gets one, and a place is held by a
permit that was granted and not released. -/
structure Inv (s : State) : Prop where
  providers : (s.queues.map (·.provider)).Nodup
  tickets : (s.tickets.map (·.id)).Nodup
  fresh : ∀ ticket ∈ s.tickets, ticket.id < s.next
  permits : ∀ pair ∈ s.granted, pair.1 < s.next ∧ pair.2.id < s.next
  waiting : ∀ queue ∈ s.queues, queue.waiting.Nodup ∧
    ∀ ticket ∈ queue.waiting, ticket ∈ s.tickets ∧ ticket.provider = queue.provider ∧ ∀ permit,
    s.futures ticket.id ≠ .done permit
  granted : (s.granted.map (·.1)).Nodup ∧ (s.granted.map (·.2.id)).Nodup
  done : ∀ pair ∈ s.granted, s.futures pair.1 = .done pair.2
  grants : ∀ id permit, s.futures id = .done permit → (id, permit) ∈ s.granted
  active : ∀ queue ∈ s.queues, queue.active.Nodup ∧
    ∀ permit ∈ queue.active, permit.provider = queue.provider ∧ permit ∈ s.granted.map (·.2) ∧ permit.id ∉ s.released
  released : ∀ id ∈ s.released, id < s.next
  cancelled : ∀ id ∈ s.cancelled, id < s.next ∧ (∀ queue ∈ s.queues, ∀ ticket ∈ queue.waiting, ticket.id ≠ id) ∧
    (s.futures id = .cancelled ∨ ∃ permit, s.futures id = .done permit ∧ permit.id ∈ s.released)

theorem start_inv : Inv start := by
  constructor <;> simp [start]

namespace Inv

variable {s s' : State}

theorem permit_eq (h : Inv s) {permit other : Permit} (hpermit : permit ∈ s.granted.map (·.2))
    (hother : other ∈ s.granted.map (·.2))
    (heq : permit.id = other.id) : permit = other := by
  obtain ⟨pair, hpair, rfl⟩ := List.mem_map.mp hpermit
  obtain ⟨pair', hpair', rfl⟩ := List.mem_map.mp hother
  exact congrArg (·.2) (List.inj_on_of_nodup_map h.granted.2 hpair hpair' heq)

theorem ticket_eq (h : Inv s) {ticket other : Ticket} (hticket : ticket ∈ s.tickets) (hother : other ∈ s.tickets)
    (heq : ticket.id = other.id) : ticket = other := List.inj_on_of_nodup_map h.tickets hticket hother heq

theorem schedule (h : Inv s) : Inv s.schedule := by
  unfold State.schedule
  split
  · exact ⟨h.providers, h.tickets, h.fresh, h.permits, h.waiting, h.granted, h.done, h.grants,
      h.active, h.released, h.cancelled⟩
  · exact h

/-- A queue is written that has no more than it had. -/
theorem put (h : Inv s) {queue next : Queue} (hmem : queue ∈ s.queues) (hprovider : next.provider = queue.provider)
    (hwaiting : next.waiting.Sublist queue.waiting) (hactive : next.active.Sublist queue.active) :
    Inv (s.put next) where
  providers := by
    rw [State.put_providers]
    exact h.providers
  tickets := h.tickets
  fresh := h.fresh
  permits := h.permits
  waiting other hother := by
    obtain rfl | ⟨hother, -⟩ := State.mem_put hother
    · obtain ⟨hnodup, hall⟩ := h.waiting queue hmem
      refine ⟨hwaiting.nodup hnodup, fun ticket hticket => ?_⟩
      rw [hprovider]
      exact hall ticket (hwaiting.subset hticket)
    · exact h.waiting other hother
  granted := h.granted
  done := h.done
  grants := h.grants
  active other hother := by
    obtain rfl | ⟨hother, -⟩ := State.mem_put hother
    · obtain ⟨hnodup, hall⟩ := h.active queue hmem
      refine ⟨hactive.nodup hnodup, fun permit hpermit => ?_⟩
      rw [hprovider]
      exact hall permit (hactive.subset hpermit)
    · exact h.active other hother
  released := h.released
  cancelled id hid := by
    obtain ⟨hfresh, hnone, hdone⟩ := h.cancelled id hid
    refine ⟨hfresh, fun other hother ticket hticket => ?_, hdone⟩
    obtain rfl | ⟨hother, -⟩ := State.mem_put hother
    · exact hnone queue hmem ticket (hwaiting.subset hticket)
    · exact hnone other hother ticket hticket

theorem configure (h : Inv s) {provider : Id} {limit : Int} (hs' : s.configure provider limit = some s') : Inv s' := by
  unfold State.configure at hs'
  split at hs'
  case isTrue => cases hs'
  case isFalse =>
    split at hs'
    case h_1 hnone =>
      cases hs'
      refine schedule ⟨?_, h.tickets, h.fresh, h.permits, fun queue hqueue => ?_, h.granted, h.done,
        h.grants, fun queue hqueue => ?_,
        h.released, fun id hid => ?_⟩
      · rw [List.map_append, List.map_singleton, List.nodup_append]
        refine ⟨h.providers, List.nodup_singleton _, fun id hid other hother => ?_⟩
        obtain ⟨queue, hqueue, rfl⟩ := List.mem_map.mp hid
        rw [List.mem_singleton.mp hother]
        have hnot := List.find?_eq_none.mp hnone queue hqueue
        exact fun heq => hnot (decide_eq_true heq)
      · obtain hqueue | hqueue := List.mem_append.mp hqueue
        · exact h.waiting queue hqueue
        · rw [List.mem_singleton.mp hqueue]
          exact ⟨List.nodup_nil, fun _ hticket => absurd hticket List.not_mem_nil⟩
      · obtain hqueue | hqueue := List.mem_append.mp hqueue
        · exact h.active queue hqueue
        · rw [List.mem_singleton.mp hqueue]
          exact ⟨List.nodup_nil, fun _ hpermit => absurd hpermit List.not_mem_nil⟩
      · obtain ⟨hfresh, hnone, hdone⟩ := h.cancelled id hid
        refine ⟨hfresh, fun queue hqueue ticket hticket => ?_, hdone⟩
        obtain hqueue | hqueue := List.mem_append.mp hqueue
        · exact hnone queue hqueue ticket hticket
        · rw [List.mem_singleton.mp hqueue] at hticket
          cases hticket
    case h_2 queue hqueue =>
      cases hs'
      refine schedule (h.put (State.queue?_eq_some hqueue).1 ?_ ?_ ?_)
      · rfl
      · exact List.Sublist.refl _
      · exact List.Sublist.refl _

/-- A ticket is queued. -/
theorem add (h : Inv s) {queue : Queue} {ticket : Ticket}
    (hqueue : s.queue? ticket.provider = some queue) (hid : ticket.id = s.next) :
    Inv {s.put {queue with waiting := queue.waiting ++ [ticket]} with
      futures := Function.update s.futures ticket.id .pending, tickets :=
          s.tickets ++ [ticket], next := s.next + 1} := by
  obtain ⟨hmem, hprovider⟩ := State.queue?_eq_some hqueue
  have hfutures : ∀ id < s.next, Function.update s.futures ticket.id Future.pending id = s.futures id := fun id hless =>
    Function.update_of_ne (hid ▸ Nat.ne_of_lt hless) _ _
  have hold : ∀ {other}, other ∈ s.queues → ∀ waiting ∈ other.waiting, waiting.id < s.next :=
      fun hother waiting hwaiting =>
    h.fresh waiting ((h.waiting _ hother).2 waiting hwaiting).1
  have hnodone : ∀ id permit, Function.update s.futures ticket.id Future.pending id = .done permit →
      s.futures id = .done permit := by
    intro id permit hdone
    by_cases heq : id = ticket.id
    · rw [heq, Function.update_self] at hdone
      cases hdone
    · rwa [Function.update_of_ne heq] at hdone
  refine ⟨?_, ?_, ?_, ?_, ?_, h.granted, ?_,
    fun id permit hdone => h.grants id permit (hnodone id permit hdone), ?_, ?_, ?_⟩
  · show ((s.put _).queues.map (·.provider)).Nodup
    rw [State.put_providers]
    exact h.providers
  · show ((s.tickets ++ [ticket]).map (·.id)).Nodup
    rw [List.map_append, List.map_singleton, List.nodup_append]
    refine ⟨h.tickets, List.nodup_singleton _, fun id hid' other hother => ?_⟩
    obtain ⟨old, hold, rfl⟩ := List.mem_map.mp hid'
    rw [List.mem_singleton.mp hother, hid]
    exact Nat.ne_of_lt (h.fresh old hold)
  · intro other hother
    obtain hother | hother := List.mem_append.mp hother
    · exact Nat.lt_succ_of_lt (h.fresh other hother)
    · rw [List.mem_singleton.mp hother, hid]
      exact Nat.lt_succ_self _
  · exact fun pair hpair => ⟨Nat.lt_succ_of_lt (h.permits pair hpair).1, Nat.lt_succ_of_lt (h.permits pair hpair).2⟩
  · intro other hother
    obtain rfl | ⟨hother, -⟩ := State.mem_put hother
    · obtain ⟨hnodup, hall⟩ := h.waiting queue hmem
      constructor
      · refine List.nodup_append.mpr ⟨hnodup, List.nodup_singleton _, fun waiting hwaiting other hother heq => ?_⟩
        have hless := hold hmem waiting hwaiting
        rw [heq, List.mem_singleton.mp hother, hid] at hless
        exact Nat.lt_irrefl _ hless
      · intro waiting hwaiting
        obtain hwaiting | hwaiting := List.mem_append.mp hwaiting
        · obtain ⟨hticket, hprovider', hpending⟩ := hall waiting hwaiting
          exact ⟨List.mem_append_left _ hticket, hprovider', fun permit hdone => hpending permit (hnodone _ _ hdone)⟩
        · rw [List.mem_singleton.mp hwaiting]
          refine ⟨List.mem_append_right _ (List.mem_singleton.mpr rfl), hprovider.symm, fun permit hdone => ?_⟩
          have hpending : Function.update s.futures ticket.id Future.pending ticket.id = .pending :=
              Function.update_self _ _ _
          exact nomatch hpending.symm.trans hdone
    · obtain ⟨hnodup, hall⟩ := h.waiting other hother
      refine ⟨hnodup, fun waiting hwaiting => ?_⟩
      obtain ⟨hticket, hprovider', hpending⟩ := hall waiting hwaiting
      exact ⟨List.mem_append_left _ hticket, hprovider', fun permit hdone => hpending permit (hnodone _ _ hdone)⟩
  · intro pair hpair
    exact (hfutures _ (h.permits pair hpair).1).trans (h.done pair hpair)
  · intro other hother
    obtain rfl | ⟨hother, -⟩ := State.mem_put hother
    · exact h.active queue hmem
    · exact h.active other hother
  · exact fun id hid' => Nat.lt_succ_of_lt (h.released id hid')
  · intro id hcancelled
    obtain ⟨hless, hnone, hdone⟩ := h.cancelled id hcancelled
    refine ⟨Nat.lt_succ_of_lt hless, fun other hother waiting hwaiting => ?_, ?_⟩
    · obtain rfl | ⟨hother, -⟩ := State.mem_put hother
      · obtain hwaiting | hwaiting := List.mem_append.mp hwaiting
        · exact hnone queue hmem waiting hwaiting
        · rw [List.mem_singleton.mp hwaiting, hid]
          exact (Nat.ne_of_lt hless).symm
      · exact hnone other hother waiting hwaiting
    · show Function.update s.futures ticket.id Future.pending id = _ ∨ ∃ permit,
          Function.update s.futures ticket.id Future.pending id = _ ∧ _
      rw [hfutures id hless]
      exact hdone

theorem enqueue (h : Inv s) {provider : Id} {limit : Int} {priority : Priority} {owner : Option String}
    (hs' : s.enqueue provider limit priority owner = some s') : Inv s' := by
  obtain ⟨s₁, hs₁, hs'⟩ := Option.bind_eq_some_iff.mp hs'
  have h₁ : Inv s₁ := by
    unfold State.known at hs₁
    split at hs₁
    · exact h.configure hs₁
    · cases hs₁
      exact h
  obtain ⟨queue, hqueue, rfl⟩ := Option.map_eq_some_iff.mp hs'
  refine schedule ?_
  exact @add s₁ h₁ queue ⟨s₁.next, provider, priority, owner, s₁.clock⟩ hqueue rfl

/-- A permit is granted to a ticket that waits. -/
theorem grant (h : Inv s) {queue : Queue} {ticket : Ticket} {permit : Permit}
    (hmem : queue ∈ s.queues) (hwaits : ticket ∈ queue.waiting)
    (hid : permit.id = s.next) (hprovider : permit.provider = queue.provider) :
    Inv {s.put {queue with waiting := queue.waiting.erase ticket, active := queue.active ++ [permit]} with
      futures := Function.update s.futures ticket.id (.done permit)
      granted := s.granted ++ [(ticket.id, permit)]
      next := s.next + 1} := by
  obtain ⟨hnodup, hall⟩ := h.waiting queue hmem
  obtain ⟨hticket, hof, hpending⟩ := hall ticket hwaits
  have hnew : ∀ pair ∈ s.granted, pair.1 ≠ ticket.id := fun pair hpair heq =>
    hpending pair.2 (heq ▸ h.done pair hpair)
  -- No other ticket that waits has this future.
  have hother : ∀ {other}, other ∈ s.queues → ∀ waiting ∈ other.waiting, waiting ≠ ticket → waiting.id ≠ ticket.id :=
    fun hother waiting hwaiting hne heq => hne (h.ticket_eq ((h.waiting _ hother).2 waiting hwaiting).1 hticket heq)
  have hkept : ∀ {id}, id ≠ ticket.id →
      Function.update s.futures ticket.id (Future.done permit) id = s.futures id := fun hne =>
    Function.update_of_ne hne _ _
  refine ⟨?_, h.tickets, fun other hother => Nat.lt_succ_of_lt (h.fresh other hother), ?_, ?_, ?_, ?_, ?_, ?_, ?_, ?_⟩
  · show ((s.put _).queues.map (·.provider)).Nodup
    rw [State.put_providers]
    exact h.providers
  · intro pair hpair
    obtain hpair | hpair := List.mem_append.mp hpair
    · exact ⟨Nat.lt_succ_of_lt (h.permits pair hpair).1, Nat.lt_succ_of_lt (h.permits pair hpair).2⟩
    · rw [List.mem_singleton.mp hpair]
      exact ⟨Nat.lt_succ_of_lt (h.fresh ticket hticket), hid ▸ Nat.lt_succ_self _⟩
  · intro other hin
    obtain rfl | ⟨hin, hne⟩ := State.mem_put hin
    · refine ⟨hnodup.erase _, fun waiting hwaiting => ?_⟩
      have hold := List.mem_of_mem_erase hwaiting
      obtain ⟨hticket', hof', hpending'⟩ := hall waiting hold
      refine ⟨hticket', hof', fun other => ?_⟩
      show Function.update s.futures ticket.id (Future.done permit) waiting.id ≠ _
      rw [hkept (hother hmem waiting hold fun heq => hnodup.not_mem_erase (heq ▸ hwaiting))]
      exact hpending' other
    · obtain ⟨hnodup', hall'⟩ := h.waiting other hin
      refine ⟨hnodup', fun waiting hwaiting => ?_⟩
      obtain ⟨hticket', hof', hpending'⟩ := hall' waiting hwaiting
      refine ⟨hticket', hof', fun other' => ?_⟩
      show Function.update s.futures ticket.id (Future.done permit) waiting.id ≠ _
      rw [hkept (hother hin waiting hwaiting fun heq => hne (hof'.symm.trans ((congrArg (·.provider) heq).trans hof)))]
      exact hpending' other'
  · show ((s.granted ++ [(ticket.id, permit)]).map (·.1)).Nodup ∧
        ((s.granted ++ [(ticket.id, permit)]).map (·.2.id)).Nodup
    rw [List.map_append, List.map_append, List.map_singleton, List.map_singleton, List.nodup_append, List.nodup_append]
    refine ⟨⟨h.granted.1, List.nodup_singleton _, fun id hid' other hother => ?_⟩,
      h.granted.2, List.nodup_singleton _, fun id hid' other hother => ?_⟩
    · obtain ⟨pair, hpair, rfl⟩ := List.mem_map.mp hid'
      rw [List.mem_singleton.mp hother]
      exact hnew pair hpair
    · obtain ⟨pair, hpair, rfl⟩ := List.mem_map.mp hid'
      rw [List.mem_singleton.mp hother, hid]
      exact Nat.ne_of_lt (h.permits pair hpair).2
  · intro pair hpair
    show Function.update s.futures ticket.id (Future.done permit) pair.1 = _
    obtain hpair | hpair := List.mem_append.mp hpair
    · rw [hkept (hnew pair hpair)]
      exact h.done pair hpair
    · rw [List.mem_singleton.mp hpair]
      exact Function.update_self _ _ _
  · intro id other hdone
    change Function.update s.futures ticket.id (Future.done permit) id = _ at hdone
    by_cases heq : id = ticket.id
    · rw [heq, Function.update_self] at hdone
      cases hdone
      rw [heq]
      exact List.mem_append_right _ (List.mem_singleton.mpr rfl)
    · rw [hkept heq] at hdone
      exact List.mem_append_left _ (h.grants id other hdone)
  · intro other hin
    show other.active.Nodup ∧ ∀ p ∈ other.active, p.provider = other.provider ∧
        p ∈ (s.granted ++ [(ticket.id, permit)]).map (·.2) ∧ _
    rw [List.map_append, List.map_singleton]
    obtain rfl | ⟨hin, -⟩ := State.mem_put hin
    · obtain ⟨hnodup', hall'⟩ := h.active queue hmem
      constructor
      · refine List.nodup_append.mpr ⟨hnodup', List.nodup_singleton _, fun old hold other hother heq => ?_⟩
        obtain ⟨pair, hpair, hold'⟩ := List.mem_map.mp (hall' old hold).2.1
        have hless := (h.permits pair hpair).2
        rw [hold', heq, List.mem_singleton.mp hother, hid] at hless
        exact Nat.lt_irrefl _ hless
      · intro old hold
        obtain hold | hold := List.mem_append.mp hold
        · obtain ⟨hprovider', hgranted, hactive⟩ := hall' old hold
          exact ⟨hprovider', List.mem_append_left _ hgranted, hactive⟩
        · rw [List.mem_singleton.mp hold]
          refine ⟨hprovider, List.mem_append_right _ (List.mem_singleton.mpr rfl), fun hreleased => ?_⟩
          exact Nat.lt_irrefl _ (hid ▸ h.released _ hreleased)
    · obtain ⟨hnodup', hall'⟩ := h.active other hin
      refine ⟨hnodup', fun old hold => ?_⟩
      obtain ⟨hprovider', hgranted, hactive⟩ := hall' old hold
      exact ⟨hprovider', List.mem_append_left _ hgranted, hactive⟩
  · exact fun id hid' => Nat.lt_succ_of_lt (h.released id hid')
  · intro id hcancelled
    obtain ⟨hless, hnone, hdone⟩ := h.cancelled id hcancelled
    refine ⟨Nat.lt_succ_of_lt hless, fun other hin waiting hwaiting => ?_, ?_⟩
    · obtain rfl | ⟨hin, -⟩ := State.mem_put hin
      · exact hnone queue hmem waiting (List.mem_of_mem_erase hwaiting)
      · exact hnone other hin waiting hwaiting
    · show Function.update s.futures ticket.id (Future.done permit) id = _ ∨
        ∃ other, Function.update s.futures ticket.id (Future.done permit) id = _ ∧ _
      rw [hkept (hnone queue hmem ticket hwaits).symm]
      exact hdone

/-- A permit is released. -/
theorem release (h : Inv s) {permit : Permit} (hpermit : permit ∈ s.granted.map (·.2)) : Inv (s.release permit) := by
  unfold State.release
  split
  case isTrue => exact h
  case isFalse hreleased =>
    have hfresh : ∀ id ∈ s.released ++ [permit.id], id < s.next := by
      intro id hid
      obtain hid | hid := List.mem_append.mp hid
      · exact h.released id hid
      · obtain ⟨pair, hpair, rfl⟩ := List.mem_map.mp hpermit
        rw [List.mem_singleton.mp hid]
        exact (h.permits pair hpair).2
    have hcancelled : ∀ id, (s.futures id = .cancelled ∨ ∃ other, s.futures id = .done other ∧ other.id ∈ s.released) →
        s.futures id = .cancelled ∨ ∃ other, s.futures id = .done other ∧ other.id ∈ s.released ++ [permit.id] := by
      rintro id (hdone | ⟨other, hdone, hmem⟩)
      · exact .inl hdone
      · exact .inr ⟨other, hdone, List.mem_append_left _ hmem⟩
    have hgone : ∀ {other : Permit}, other ∈ s.granted.map (·.2) → other.id ∉ s.released → other ≠ permit →
        other.id ∉ s.released ++ [permit.id] := by
      intro other hother hnot hne hmem
      obtain hmem | hmem := List.mem_append.mp hmem
      · exact hnot hmem
      · exact hne (h.permit_eq hother hpermit (List.mem_singleton.mp hmem))
    dsimp only
    split
    case h_1 hnone =>
      refine ⟨h.providers, h.tickets, h.fresh, h.permits, h.waiting, h.granted, h.done, h.grants,
        fun queue hqueue => ?_, hfresh,
        fun id hid => ⟨(h.cancelled id hid).1, (h.cancelled id hid).2.1, hcancelled id (h.cancelled id hid).2.2⟩⟩
      obtain ⟨hnodup, hall⟩ := h.active queue hqueue
      refine ⟨hnodup, fun other hother => ?_⟩
      obtain ⟨hprovider, hgranted, hnot⟩ := hall other hother
      refine ⟨hprovider, hgranted, hgone hgranted hnot fun heq => ?_⟩
      have hfound := List.find?_eq_none.mp hnone queue hqueue
      exact hfound (decide_eq_true (heq ▸ hprovider.symm))
    case h_2 queue hqueue =>
      obtain ⟨hmem, hof⟩ := State.queue?_eq_some (s := s) hqueue
      refine schedule ⟨?_, h.tickets, h.fresh, h.permits, fun other hother => ?_, h.granted, h.done,
        h.grants, fun other hother => ?_,
        hfresh, fun id hid => ?_⟩
      · rw [State.put_providers]
        exact h.providers
      · obtain rfl | ⟨hother, -⟩ := State.mem_put hother
        · exact h.waiting queue hmem
        · exact h.waiting other hother
      · obtain rfl | ⟨hother, hne⟩ := State.mem_put hother
        · obtain ⟨hnodup, hall⟩ := h.active queue hmem
          refine ⟨hnodup.erase _, fun other hother => ?_⟩
          obtain ⟨hprovider, hgranted, hnot⟩ := hall other (List.mem_of_mem_erase hother)
          exact ⟨hprovider, hgranted, hgone hgranted hnot fun heq => hnodup.not_mem_erase (heq ▸ hother)⟩
        · obtain ⟨hnodup, hall⟩ := h.active other hother
          refine ⟨hnodup, fun old hold => ?_⟩
          obtain ⟨hprovider, hgranted, hnot⟩ := hall old hold
          exact ⟨hprovider, hgranted, hgone hgranted hnot fun heq => hne (hprovider.symm.trans (heq ▸ hof.symm))⟩
      · obtain ⟨hless, hnone, hdone⟩ := h.cancelled id hid
        refine ⟨hless, fun other hother ticket hticket => ?_, hcancelled id hdone⟩
        obtain rfl | ⟨hother, -⟩ := State.mem_put hother
        · exact hnone queue hmem ticket hticket
        · exact hnone other hother ticket hticket

/-- A ticket that does not wait is cancelled, its permit if it has one. -/
theorem close (h : Inv s) {ticket : Ticket} (hticket : ticket ∈ s.tickets)
    (hgone : ∀ queue ∈ s.queues, ∀ other ∈ queue.waiting, other.id ≠ ticket.id) {futures : Id → Future}
    (hfutures : (s.futures ticket.id = .cancelled ∨ s.futures ticket.id = .pending) ∧
        futures = Function.update s.futures ticket.id .cancelled ∨
      (∃ permit, s.futures ticket.id = .done permit ∧ permit.id ∈ s.released) ∧ futures = s.futures) :
    Inv {s with cancelled := s.cancelled ++ [ticket.id], futures := futures} := by
  have hless := h.fresh ticket hticket
  have hkept : ∀ id permit, futures id = .done permit ↔ s.futures id = .done permit := by
    intro id permit
    obtain ⟨hopen, rfl⟩ | ⟨-, rfl⟩ := hfutures
    · by_cases heq : id = ticket.id
      · rw [heq, Function.update_self]
        obtain hopen | hopen := hopen
        · rw [hopen]
        · rw [hopen]
          exact ⟨nofun, nofun⟩
      · rw [Function.update_of_ne heq]
    · exact Iff.rfl
  have hcancelled : ∀ id, s.futures id = .cancelled → futures id = .cancelled := by
    intro id hid
    obtain ⟨-, rfl⟩ | ⟨-, rfl⟩ := hfutures
    · by_cases heq : id = ticket.id
      · rw [heq, Function.update_self]
      · rwa [Function.update_of_ne heq]
    · exact hid
  refine ⟨h.providers, h.tickets, h.fresh, h.permits, fun queue hqueue => ?_, h.granted,
    fun pair hpair => ?_, fun id permit hdone => ?_,
    h.active, h.released, fun id hid => ?_⟩
  · obtain ⟨hnodup, hall⟩ := h.waiting queue hqueue
    refine ⟨hnodup, fun other hother => ?_⟩
    obtain ⟨hmem, hof, hpending⟩ := hall other hother
    exact ⟨hmem, hof, fun permit hdone => hpending permit ((hkept _ _).mp hdone)⟩
  · exact (hkept _ _).mpr (h.done pair hpair)
  · exact h.grants id permit ((hkept _ _).mp hdone)
  · obtain hid | hid := List.mem_append.mp hid
    · obtain ⟨hold, hnone, hdone⟩ := h.cancelled id hid
      refine ⟨hold, hnone, hdone.imp (hcancelled id) ?_⟩
      rintro ⟨permit, hdone, hreleased⟩
      exact ⟨permit, (hkept _ _).mpr hdone, hreleased⟩
    · rw [List.mem_singleton.mp hid]
      refine ⟨hless, hgone, ?_⟩
      obtain ⟨-, rfl⟩ | ⟨hdone, rfl⟩ := hfutures
      · exact .inl (Function.update_self _ _ _)
      · exact .inr hdone

/-- What a release leaves, and that the permit is released. -/
theorem release_spec (s : State) (permit : Permit) :
    (s.release permit).futures = s.futures ∧ (s.release permit).tickets = s.tickets ∧
    permit.id ∈ (s.release permit).released ∧
      ∀ queue ∈ (s.release permit).queues, ∃ old ∈ s.queues, queue.waiting = old.waiting := by
  unfold State.release
  split
  case isTrue hreleased => exact ⟨rfl, rfl, hreleased, fun queue hqueue => ⟨queue, hqueue, rfl⟩⟩
  case isFalse =>
    dsimp only
    split
    case h_1 =>
      exact ⟨rfl, rfl, List.mem_append_right _ (List.mem_singleton.mpr rfl),
        fun queue hqueue => ⟨queue, hqueue, rfl⟩⟩
    case h_2 queue hqueue =>
      obtain ⟨hqueues, hfutures, -, htickets, -, -, hreleased⟩ :=
        State.schedule_fields (State.put {s with released := s.released ++ [permit.id]}
          {queue with active := queue.active.erase permit})
      rw [hqueues, hfutures, htickets, hreleased]
      refine ⟨rfl, rfl, List.mem_append_right _ (List.mem_singleton.mpr rfl), fun other hother => ?_⟩
      obtain rfl | ⟨hother, -⟩ := State.mem_put hother
      · exact ⟨queue, (State.queue?_eq_some (s := s) hqueue).1, rfl⟩
      · exact ⟨other, hother, rfl⟩

theorem cancel (h : Inv s) {ticket : Ticket} (hticket : ticket ∈ s.tickets)
    (hs' : s.cancel ticket = some s') : Inv s' := by
  obtain ⟨queue, hqueue, rfl⟩ := Option.map_eq_some_iff.mp hs'
  obtain ⟨hmem, hof⟩ := State.queue?_eq_some hqueue
  let s₁ := s.put {queue with waiting := queue.waiting.erase ticket}
  have h₁ : Inv s₁ := h.put hmem rfl List.erase_sublist (List.Sublist.refl _)
  have hgone : ∀ other ∈ s₁.queues, ∀ waiting ∈ other.waiting, waiting.id ≠ ticket.id := by
    intro other hother waiting hwaiting heq
    obtain rfl | ⟨hother, hne⟩ := State.mem_put hother
    · obtain ⟨hnodup, hall⟩ := h.waiting queue hmem
      have hsame := h.ticket_eq (hall waiting (List.mem_of_mem_erase hwaiting)).1 hticket heq
      exact hnodup.not_mem_erase (hsame ▸ hwaiting)
    · obtain ⟨hwaits, hof', -⟩ := (h.waiting other hother).2 waiting hwaiting
      exact hne (hof'.symm.trans ((congrArg (·.provider) (h.ticket_eq hwaits hticket heq)).trans hof.symm))
  refine schedule ?_
  show Inv {s₁.closeFuture ticket with cancelled := (s₁.closeFuture ticket).cancelled ++ [ticket.id]}
  unfold State.closeFuture
  split
  case h_1 permit hdone =>
    obtain ⟨hfutures, htickets, hreleased, hqueues⟩ := release_spec s₁ permit
    have hgranted : permit ∈ s₁.granted.map (·.2) := List.mem_map.mpr ⟨_, h₁.grants _ _ hdone, rfl⟩
    refine (h₁.release hgranted).close (by rwa [htickets]) (fun other hother => ?_)
      (.inr ⟨⟨permit, ?_, hreleased⟩, rfl⟩)
    · obtain ⟨old, hold, heq⟩ := hqueues other hother
      rw [heq]
      exact hgone old hold
    · rwa [hfutures]
  case h_2 hopen =>
    refine h₁.close hticket hgone (.inl ⟨?_, rfl⟩)
    cases hfuture : s₁.futures ticket.id with
    | pending => exact .inr rfl
    | cancelled => exact .inl rfl
    | done permit => exact absurd hfuture (hopen permit)

/-- A ticket is abandoned. -/
theorem abandon (h : Inv s) {ticket : Ticket} (hpending : s.futures ticket.id = .pending) :
    Inv {s with futures := Function.update s.futures ticket.id .cancelled} := by
  have hkept : ∀ id permit, Function.update s.futures ticket.id Future.cancelled id = .done permit ↔
      s.futures id = .done permit := by
    intro id permit
    by_cases heq : id = ticket.id
    · rw [heq, Function.update_self, hpending]
      exact ⟨nofun, nofun⟩
    · rw [Function.update_of_ne heq]
  refine ⟨h.providers, h.tickets, h.fresh, h.permits, fun queue hqueue => ?_, h.granted,
    fun pair hpair => ?_, fun id permit hdone => ?_,
    h.active, h.released, fun id hid => ?_⟩
  · obtain ⟨hnodup, hall⟩ := h.waiting queue hqueue
    refine ⟨hnodup, fun other hother => ?_⟩
    obtain ⟨hmem, hof, hnone⟩ := hall other hother
    exact ⟨hmem, hof, fun permit hdone => hnone permit ((hkept _ _).mp hdone)⟩
  · exact (hkept _ _).mpr (h.done pair hpair)
  · exact h.grants id permit ((hkept _ _).mp hdone)
  · obtain ⟨hless, hnone, hdone⟩ := h.cancelled id hid
    refine ⟨hless, hnone, hdone.imp (fun hcancelled => ?_) ?_⟩
    · show Function.update s.futures ticket.id Future.cancelled id = .cancelled
      by_cases heq : id = ticket.id
      · rw [heq, Function.update_self]
      · rwa [Function.update_of_ne heq]
    · rintro ⟨permit, hdone, hreleased⟩
      exact ⟨permit, (hkept _ _).mpr hdone, hreleased⟩

end Inv

/-! ### Drains -/

namespace State

variable {s s' : State} {provider : Id}

/-- What a turn does. -/
theorem grantNext_eq_some (h : s.grantNext provider = some s') : ∃ queue ticket, s.queue? provider = some queue ∧
    chosen s.clock queue = some ticket ∧
      ((s.futures ticket.id = .cancelled ∧ s' = s.put {queue with waiting := queue.waiting.erase ticket}) ∨
        (s.futures ticket.id ≠ .cancelled ∧
          s' = {s.put {queue with
              waiting := queue.waiting.erase ticket
              active := queue.active ++ [⟨s.next, provider, ticket.priority, ticket.owner⟩]} with
            futures := Function.update s.futures ticket.id (.done ⟨s.next, provider, ticket.priority, ticket.owner⟩)
            granted := s.granted ++ [(ticket.id, ⟨s.next, provider, ticket.priority, ticket.owner⟩)]
            next := s.next + 1})) := by
  unfold grantNext at h
  obtain ⟨queue, hqueue, h⟩ := Option.bind_eq_some_iff.mp h
  obtain ⟨ticket, hchosen, h⟩ := Option.bind_eq_some_iff.mp h
  refine ⟨queue, ticket, hqueue, hchosen, ?_⟩
  dsimp only at h
  split at h
  case isTrue hcancelled => exact .inl ⟨hcancelled, (Option.some.inj h).symm⟩
  case isFalse hopen => exact .inr ⟨hopen, (Option.some.inj h).symm⟩

/-- What every turn of a drain preserves, the drain preserves. -/
theorem drain_invariant {P : State → Prop} (hstart : P {s with scheduled := false})
    (preserved : ∀ provider s s', P s → s.grantNext provider = some s' → P s') : P s.drain := by
  unfold drain
  generalize ({s with scheduled := false} : State) = before at hstart
  generalize s.queues.map (·.provider) = providers
  induction providers generalizing before with
  | nil => exact hstart
  | cons provider rest ih => exact ih _ (repeated_invariant (preserved provider) _ hstart)

end State

theorem Inv.grantNext {s s' : State} {provider : Id} (h : Inv s) (hs' : s.grantNext provider = some s') : Inv s' := by
  obtain ⟨queue, ticket, hqueue, hchosen, ⟨-, rfl⟩ | ⟨-, rfl⟩⟩ := State.grantNext_eq_some hs'
  · exact h.put (State.queue?_eq_some hqueue).1 rfl List.erase_sublist (List.Sublist.refl _)
  · obtain ⟨hmem, hof⟩ := State.queue?_eq_some hqueue
    exact h.grant hmem (chosen_eq_some hchosen).1 rfl hof.symm

theorem apply_inv {s s' : State} {event : Event} (h : Inv s) (hs' : apply s event = some s') : Inv s' := by
  cases event with
  | configure provider limit => exact h.configure hs'
  | enqueue provider limit priority owner => exact h.enqueue hs'
  | cancel ticket =>
    unfold apply at hs'
    dsimp only at hs'
    split at hs'
    case isTrue hticket => exact h.cancel hticket hs'
    case isFalse => cases hs'
  | abandon ticket =>
    unfold apply at hs'
    dsimp only at hs'
    split at hs'
    case isTrue hopen =>
      cases hs'
      exact h.abandon hopen.2
    case isFalse => cases hs'
  | release permit =>
    unfold apply at hs'
    dsimp only at hs'
    split at hs'
    case isTrue hgranted =>
      cases hs'
      exact h.release hgranted
    case isFalse => cases hs'
  | drain =>
    unfold apply at hs'
    dsimp only at hs'
    split at hs'
    case isTrue =>
      cases hs'
      refine State.drain_invariant ?_ fun provider _ _ h hs' => h.grantNext hs'
      exact ⟨h.providers, h.tickets, h.fresh, h.permits, h.waiting, h.granted, h.done, h.grants,
        h.active, h.released, h.cancelled⟩
    case isFalse => cases hs'
  | tick nanoseconds =>
    cases hs'
    exact ⟨h.providers, h.tickets, h.fresh, h.permits, h.waiting, h.granted, h.done, h.grants,
      h.active, h.released, h.cancelled⟩

end Galaris.Llm.Scheduler
