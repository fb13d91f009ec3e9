import Galaris.Base.Transition
import Mathlib.Data.Finset.Basic
import Mathlib.Data.List.Basic
import Mathlib.Logic.Function.Basic
import Mathlib.Algebra.Order.Ring.Int

/-! Admission of buffered operations by their bytes (`core/util/byte_budget.py`).

A reservation waits under the lock of the condition, is granted, and is released by a task of its own, which
nobody cancels. Each section that holds the lock is an event here; that a wait times out, is cancelled or finds
its parent closed, is one event too. What a reservation is charged to is the budget, or the allowance of its
parent; whatever happens, either is the sum of what it is charged with (`Inv`). -/
namespace Galaris.Core.ByteBudget

open Transition

/-- The bytes and the operations that there may be. -/
structure Budget where
  capacity : Nat
  maxOperations : Nat

/-- Reservations are numbered as they come; tasks are numbered too. -/
abbrev Id := Nat

inductive Phase
  | waiting
  /-- Its body runs. -/
  | live
  /-- Its body has ended; the task that releases it waits for the lock. -/
  | leaving
  /-- It waits for its children. -/
  | closing
  | exited
  /-- It was never granted. -/
  | deferred
deriving DecidableEq, Repr

/-- A reservation, with its envelope: what is left for its children, and whether it is closed. `saved` is
what its context variable is reset to. -/
structure Reservation where
  task : Id
  size : Int
  owner : String
  childBytes : Int
  parent : Option Id
  phase : Phase
  available : Int
  closed : Bool
  saved : Option Id
deriving DecidableEq, Repr

def Reservation.total (r : Reservation) : Int := r.size + r.childBytes

/-- It has been granted and not been released. -/
def Reservation.held (r : Reservation) : Bool := r.phase = .live || r.phase = .leaving || r.phase = .closing

/-- A budget in use; `contexts` says, for each task, the reservation whose envelope it is in. -/
structure State where
  used : Int := 0
  active : Int := 0
  owners : Finset String := ∅
  reservations : List Reservation := []
  contexts : Id → Option Id := fun _ => none

/-- The checks of `reserve`. -/
def validate (b : Budget) (size childBytes : Int) : Except String Int :=
  if childBytes < 0 then .error "Child allowance must be nonnegative"
  else if size ≤ 0 ∨ b.capacity < size then .error "Buffered operation exceeds the process memory budget"
  else if b.capacity < size + childBytes then .error "Buffered envelope exceeds the process memory budget"
  else .ok (size + childBytes)

namespace State

/-- The parent of a reservation is closed. -/
def closed (s : State) (parent : Option Id) : Bool := ((parent.bind (s.reservations[·]?)).map (·.closed)).getD false

/-- `reserve` until it waits for the lock. What is refused changes nothing; a parent that is closed is none. -/
def enter (b : Budget) (s : State) (task : Id) (size : Int) (owner : String) (childBytes : Int) : State :=
  match validate b size childBytes with
  | .error _ => s
  | .ok _ =>
    let parent := if s.closed (s.contexts task) then none else s.contexts task
    {s with
      reservations := s.reservations ++ [⟨task, size, owner, childBytes, parent, .waiting, childBytes, false, none⟩]}

/-- A reservation has room, in the allowance of its parent or in the budget. -/
def fits (b : Budget) (s : State) (r : Reservation) : Bool :=
  match r.parent with
  | some parent => (s.reservations[parent]?).any fun parent => r.total ≤ parent.available
  | none => s.used + r.total ≤ b.capacity && s.active < b.maxOperations

/-- Bytes and an operation are moved to a parent, or to the budget; or back, where they are negative. -/
def move (s : State) (parent : Option Id) (bytes operations : Int) : State :=
  match parent with
  | some parent =>
    {s with reservations := s.reservations.modify parent fun r => {r with
      available := r.available - bytes}}
  | none => {s with used := s.used + bytes, active := s.active + operations}

def charge (s : State) (r : Reservation) : State := s.move r.parent r.total 1

def discharge (s : State) (r : Reservation) : State := s.move r.parent (-r.total) (-1)

def update (s : State) (id : Id) (f : Reservation → Reservation) : State :=
    {s with reservations := s.reservations.modify id f}

/-- A waiting reservation is granted; its task goes on in its envelope, where it has one. -/
def grant (b : Budget) (s : State) (id : Id) : Option State :=
  (s.reservations[id]?).bind fun r =>
    if r.phase = .waiting ∧ ¬s.closed r.parent ∧ s.fits b r ∧ r.owner ∉ s.owners then
      let s := (s.charge r).update id fun r => {r with phase := .live, saved := s.contexts r.task}
      some {s with
        owners := insert r.owner s.owners
        contexts := Function.update s.contexts r.task (if r.childBytes = 0 then none else some id)}
    else none

/-- A reservation is not granted, because of its timeout, its cancellation or its parent. -/
def defer (s : State) (id : Id) : Option State :=
  (s.reservations[id]?).bind fun r =>
    if r.phase = .waiting then some (s.update id fun r => {r with phase := .deferred}) else none

/-- A body returns, raises or is cancelled. -/
def leave (s : State) (id : Id) : Option State :=
  (s.reservations[id]?).bind fun r =>
    if r.phase = .live then
      some {s.update id fun r => {r with phase := .leaving} with contexts := Function.update s.contexts r.task r.saved}
    else none

/-- `release` begins: the envelope is closed, where there is one. -/
def close (s : State) (id : Id) : Option State :=
  (s.reservations[id]?).bind fun r =>
    if r.phase = .leaving then some (s.update id fun r =>
      {r with phase := .closing, closed := r.childBytes ≠ 0}) else none

/-- `release` ends, once the children have given back the allowance. -/
def release (s : State) (id : Id) : Option State :=
  (s.reservations[id]?).bind fun r =>
    if r.phase = .closing ∧ r.available = r.childBytes then
      let s := (s.discharge r).update id fun r => {r with phase := .exited}
      some {s with owners := s.owners.erase r.owner}
    else none

end State

inductive Event
  /-- A task starts another, which has a copy of its context. -/
  | spawn (task child : Id)
  | enter (task : Id) (size : Int) (owner : String) (childBytes : Int)
  | grant (id : Id)
  | defer (id : Id)
  | leave (id : Id)
  | close (id : Id)
  | release (id : Id)
deriving DecidableEq, Repr

def apply (b : Budget) (s : State) : Event → Option State
  | .spawn task child => some {s with contexts := Function.update s.contexts child (s.contexts task)}
  | .enter task size owner childBytes => some (s.enter b task size owner childBytes)
  | .grant id => s.grant b id
  | .defer id => s.defer id
  | .leave id => s.leave id
  | .close id => s.close id
  | .release id => s.release id

/-! ### What is held -/

/-- What a reservation is charged with, to a parent or to the budget. -/
def share (parent : Option Id) (r : Reservation) : Int := if r.held = true ∧ r.parent = parent then r.total else 0

def charged (reservations : List Reservation) (parent : Option Id) : Int := (reservations.map (share parent)).sum

/-- The operations that are charged to the budget. -/
def operations (reservations : List Reservation) : Nat := reservations.countP fun r => r.held && r.parent.isNone

def holders (reservations : List Reservation) : List String := (reservations.filter (·.held)).map (·.owner)

/-- One reservation is replaced in its place. -/
theorem modify_split {reservations : List Reservation} {i : Id} {r : Reservation}
    (h : reservations[i]? = some r) (f : Reservation → Reservation) :
    ∃ before after, reservations = before ++ r :: after ∧ reservations.modify i f = before ++ f r :: after := by
  induction reservations generalizing i with
  | nil => cases h
  | cons first rest ih =>
    cases i with
    | zero =>
      cases h
      exact ⟨[], rest, rfl, List.modify_zero_cons ..⟩
    | succ i =>
      obtain ⟨before, after, hrest, hmodify⟩ := ih (i := i) h
      exact ⟨first :: before, after, congrArg (first :: ·) hrest, by rw [List.modify_succ_cons, hmodify]; rfl⟩

/-- What a reservation asks for does not change. -/
structure Keeps (f : Reservation → Reservation) : Prop where
  parent : ∀ r, (f r).parent = r.parent
  owner : ∀ r, (f r).owner = r.owner
  size : ∀ r, (f r).size = r.size
  childBytes : ∀ r, (f r).childBytes = r.childBytes

theorem keeps_phase (phase : Phase) : Keeps fun r => {r with phase := phase} :=
    ⟨fun _ => rfl, fun _ => rfl, fun _ => rfl, fun _ => rfl⟩

theorem keeps_live (contexts : Id → Option Id) : Keeps fun r => {r with phase := .live, saved := contexts r.task} :=
  ⟨fun _ => rfl, fun _ => rfl, fun _ => rfl, fun _ => rfl⟩

theorem keeps_closing : Keeps fun r => {r with phase := .closing, closed := r.childBytes ≠ 0} :=
  ⟨fun _ => rfl, fun _ => rfl, fun _ => rfl, fun _ => rfl⟩

theorem keeps_available (bytes : Int) : Keeps fun r => {r with available := r.available - bytes} :=
  ⟨fun _ => rfl, fun _ => rfl, fun _ => rfl, fun _ => rfl⟩

section Modified
variable {reservations : List Reservation} {i : Id} {r : Reservation} {f : Reservation → Reservation}

theorem Keeps.total (hf : Keeps f) (r : Reservation) : (f r).total = r.total := by
  rw [Reservation.total, Reservation.total, hf.size, hf.childBytes]

/-- The share of a reservation depends on its phase only. -/
theorem Keeps.share (hf : Keeps f) (r : Reservation) (parent : Option Id) :
    share parent (f r) = if (f r).held = true ∧ r.parent = parent then r.total else 0 := by
  rw [ByteBudget.share, hf.parent, hf.total]

/-- What is charged changes by the share of the one reservation. -/
theorem charged_modify (h : reservations[i]? = some r) (parent : Option Id) :
    charged (reservations.modify i f) parent = charged reservations parent + (share parent (f r) - share parent r) := by
  obtain ⟨before, after, heq, hmodify⟩ := modify_split h f
  rw [hmodify, heq]
  simp only [charged, List.map_append, List.map_cons, List.sum_append, List.sum_cons]
  omega

/-- Where nothing begins or ends to be held, the sums stay. -/
theorem charged_kept (hf : Keeps f) (hheld : ∀ r, reservations[i]? = some r → (f r).held = r.held)
    (parent : Option Id) :
    charged (reservations.modify i f) parent = charged reservations parent := by
  cases h : reservations[i]? with
  | none => rw [List.modify_eq_self (List.getElem?_eq_none_iff.mp h)]
  | some r =>
    rw [charged_modify h, hf.share, ByteBudget.share, hheld r h]
    omega

/-- The operations stay while nobody begins or ends. -/
theorem operations_kept (hf : Keeps f) (hheld : ∀ r, reservations[i]? = some r → (f r).held = r.held) :
    operations (reservations.modify i f) = operations reservations := by
  cases h : reservations[i]? with
  | none => rw [List.modify_eq_self (List.getElem?_eq_none_iff.mp h)]
  | some r =>
    obtain ⟨before, after, heq, hmodify⟩ := modify_split h f
    rw [hmodify, heq]
    simp only [operations, List.countP_append, List.countP_cons, hf.parent, hheld r h]

theorem holders_kept (hf : Keeps f) (hheld : ∀ r, reservations[i]? = some r → (f r).held = r.held) :
    holders (reservations.modify i f) = holders reservations := by
  cases h : reservations[i]? with
  | none => rw [List.modify_eq_self (List.getElem?_eq_none_iff.mp h)]
  | some r =>
    obtain ⟨before, after, heq, hmodify⟩ := modify_split h f
    rw [hmodify, heq]
    simp only [holders, List.filter_append, List.filter_cons, List.map_append, hheld r h]
    cases r.held <;> simp [hf.owner]

/-- Who begins holds. -/
theorem holders_begin (h : reservations[i]? = some r) (hf : Keeps f) (hbefore : r.held = false)
    (hafter : (f r).held = true) :
    (holders (reservations.modify i f)).Perm (r.owner :: holders reservations) := by
  obtain ⟨before, after, heq, hmodify⟩ := modify_split h f
  rw [hmodify, heq]
  simp only [holders, List.filter_append, List.filter_cons, List.map_append, hbefore, hafter,
    if_true, List.map_cons, hf.owner]
  exact List.perm_middle

/-- Who ends does not hold any more. -/
theorem holders_end (h : reservations[i]? = some r) (hbefore : r.held = true) (hafter : (f r).held = false) :
    (holders reservations).Perm (r.owner :: holders (reservations.modify i f)) := by
  obtain ⟨before, after, heq, hmodify⟩ := modify_split h f
  rw [hmodify, heq]
  simp only [holders, List.filter_append, List.filter_cons, List.map_append, hbefore, hafter, if_true, List.map_cons]
  exact List.perm_middle

theorem operations_begin (h : reservations[i]? = some r) (hf : Keeps f) (hbefore : r.held = false)
    (hafter : (f r).held = true) :
    operations (reservations.modify i f) = operations reservations + if r.parent = none then 1 else 0 := by
  obtain ⟨before, after, heq, hmodify⟩ := modify_split h f
  rw [hmodify, heq]
  simp only [operations, List.countP_append, List.countP_cons, hf.parent, hbefore, hafter,
    Bool.true_and, Bool.false_and,
    Option.isNone_iff_eq_none, Bool.false_eq_true, if_false]
  omega

theorem operations_end (h : reservations[i]? = some r) (hbefore : r.held = true) (hafter : (f r).held = false) :
    operations reservations = operations (reservations.modify i f) + if r.parent = none then 1 else 0 := by
  obtain ⟨before, after, heq, hmodify⟩ := modify_split h f
  rw [hmodify, heq]
  simp only [operations, List.countP_append, List.countP_cons, hbefore, hafter, Bool.true_and, Bool.false_and,
    Option.isNone_iff_eq_none, Bool.false_eq_true, if_false]
  omega

end Modified

/-! ### Parents -/

def Reservation.granted (r : Reservation) : Bool := r.phase ≠ .waiting && r.phase ≠ .deferred

/-- A reservation has been granted an envelope. -/
def Opened (reservations : List Reservation) (id : Id) : Prop :=
    ∃ r, reservations[id]? = some r ∧ r.granted = true ∧ r.childBytes ≠ 0

/-- Every envelope in a context has been granted, and is closed when its reservation is released. -/
structure Linked (s : State) : Prop where
  contexts : ∀ task id, s.contexts task = some id → Opened s.reservations id
  links : ∀ r ∈ s.reservations, ∀ id, r.parent = some id ∨ r.saved = some id → Opened s.reservations id
  closed : ∀ r ∈ s.reservations, (r.closed = true ↔ (r.phase = .closing ∨ r.phase = .exited) ∧ r.childBytes ≠ 0)

theorem mem_modify {reservations : List Reservation} {i : Id} {f : Reservation → Reservation}
    {r' : Reservation} (h : r' ∈ reservations.modify i f) :
    r' ∈ reservations ∨ ∃ r, reservations[i]? = some r ∧ r' = f r := by
  cases hr : reservations[i]? with
  | none =>
    rw [List.modify_eq_self (List.getElem?_eq_none_iff.mp hr)] at h
    exact .inl h
  | some r =>
    obtain ⟨before, after, heq, hmodify⟩ := modify_split hr f
    rw [hmodify] at h
    rw [heq]
    simp only [List.mem_append, List.mem_cons] at h ⊢
    obtain h | rfl | h := h
    · exact .inl (.inl h)
    · exact .inr ⟨r, rfl, rfl⟩
    · exact .inl (.inr (.inr h))

theorem get_modify {reservations : List Reservation} {i j : Id} {f : Reservation → Reservation} {r' : Reservation}
    (h : (reservations.modify i f)[j]? = some r') : ∃ r, reservations[j]? = some r ∧ (r' = r ∨ i = j ∧ r' = f r) := by
  rw [List.getElem?_modify] at h
  obtain ⟨r, hr, heq⟩ := Option.map_eq_some_iff.mp h
  refine ⟨r, hr, ?_⟩
  split at heq
  case isTrue hi => exact .inr ⟨hi, heq.symm⟩
  case isFalse => exact .inl heq.symm

/-- A child budget stays open while its section lives. -/
theorem Opened.modify {reservations : List Reservation} {i id : Id} {f : Reservation → Reservation}
    (h : Opened reservations id) (hf : Keeps f)
    (hgranted : ∀ r, reservations[i]? = some r → r.granted = true → (f r).granted = true) :
    Opened (reservations.modify i f) id := by
  obtain ⟨r, hr, hopen, hchildren⟩ := h
  by_cases hi : i = id
  · subst hi
    refine ⟨f r, ?_, hgranted r hr hopen, ?_⟩
    · rw [List.getElem?_modify, hr]
      simp
    · rw [hf.childBytes]
      exact hchildren
  · refine ⟨r, ?_, hopen, hchildren⟩
    rw [List.getElem?_modify, hr]
    simp [hi]

/-- A reservation goes on. -/
theorem Linked.modify {s : State} (h : Linked s) {i : Id} {f : Reservation → Reservation} (hf : Keeps f)
    (hgranted : ∀ r, s.reservations[i]? = some r → r.granted = true → (f r).granted = true)
    (hsaved : ∀ r, s.reservations[i]? = some r → ∀ id, (f r).saved = some id → Opened s.reservations id)
    (hclosed : ∀ r, s.reservations[i]? = some r → ((f r).closed = true ↔
      ((f r).phase = .closing ∨ (f r).phase = .exited) ∧ (f r).childBytes ≠ 0)) :
    Linked (s.update i f) where
  contexts task id hcontext := (h.contexts task id hcontext).modify hf hgranted
  links r' hr' id hlink := by
    refine Opened.modify ?_ hf hgranted
    obtain hold | ⟨r, hr, rfl⟩ := mem_modify hr'
    · exact h.links r' hold id hlink
    · obtain hparent | hback := hlink
      · rw [hf.parent] at hparent
        exact h.links r (List.mem_of_getElem? hr) id (.inl hparent)
      · exact hsaved r hr id hback
  closed r' hr' := by
    obtain hold | ⟨r, hr, rfl⟩ := mem_modify hr'
    · exact h.closed r' hold
    · exact hclosed r hr

theorem Linked.inContexts {s : State} (h : Linked s) {contexts : Id → Option Id} {used active : Int}
    {owners : Finset String}
    (hcontexts : ∀ task id, contexts task = some id → Opened s.reservations id) :
    Linked ⟨used, active, owners, s.reservations, contexts⟩ :=
  ⟨hcontexts, h.links, h.closed⟩

/-- Moving bytes breaks no link. -/
theorem Linked.move {s : State} (h : Linked s) (parent : Option Id) (bytes operations : Int) :
    Linked (s.move parent bytes operations) := by
  cases parent with
  | none => exact h.inContexts h.contexts
  | some parent =>
    refine h.modify (keeps_available bytes) (fun r _ hgranted => hgranted) (fun r hr id hsaved => ?_) fun r hr => ?_
    · exact h.links r (List.mem_of_getElem? hr) id (.inr hsaved)
    · exact h.closed r (List.mem_of_getElem? hr)

theorem move_contexts (s : State) (parent : Option Id) (bytes operations : Int) :
    (s.move parent bytes operations).contexts = s.contexts := by
  cases parent <;> rfl

theorem move_owners (s : State) (parent : Option Id) (bytes operations : Int) :
    (s.move parent bytes operations).owners = s.owners := by
  cases parent <;> rfl

/-- A move changes no more than what is available. -/
theorem move_get {s : State} {i : Id} {r : Reservation} (h : s.reservations[i]? = some r)
    (parent : Option Id) (bytes operations : Int) :
    (s.move parent bytes operations).reservations[i]? =
    some {r with available := r.available - if parent = some i then bytes else 0} := by
  cases parent with
  | none =>
    show s.reservations[i]? = _
    rw [h]
    simp
  | some parent =>
    show (s.reservations.modify parent _)[i]? = _
    rw [List.getElem?_modify, h]
    by_cases hi : parent = i
    · simp [hi]
    · simp [hi]

theorem opened_update {contexts : Id → Option Id} {reservations : List Reservation} {task : Id} {value : Option Id}
    (hcontexts : ∀ task id, contexts task = some id → Opened reservations id)
    (hvalue : ∀ id, value = some id → Opened reservations id) :
    ∀ other id, Function.update contexts task value other = some id → Opened reservations id := by
  intro other id hid
  rw [Function.update_apply] at hid
  split at hid
  case isTrue => exact hvalue id hid
  case isFalse => exact hcontexts other id hid

/-- A new reservation is linked to its context. -/
theorem Linked.enter {b : Budget} {s : State} (h : Linked s) (task : Id) (size : Int)
    (owner : String) (childBytes : Int) :
    Linked (s.enter b task size owner childBytes) := by
  unfold State.enter
  split
  case h_1 => exact h
  case h_2 =>
    have happend : ∀ new id, Opened s.reservations id → Opened (s.reservations ++ [new]) id := by
      rintro new id ⟨r, hr, hopen⟩
      exact ⟨r, by rw [List.getElem?_append_left (List.getElem?_eq_some_iff.mp hr).1, hr], hopen⟩
    refine ⟨fun other id hid => happend _ id (h.contexts other id hid),
      fun r hr id hlink => happend _ id ?_, fun r hr => ?_⟩
    · obtain hold | hnew := List.mem_append.mp hr
      · exact h.links r hold id hlink
      · rw [List.mem_singleton.mp hnew] at hlink
        obtain hparent | hsaved := hlink
        · dsimp only at hparent
          split at hparent
          case isTrue => cases hparent
          case isFalse => exact h.contexts task id hparent
        · cases hsaved
    · obtain hold | hnew := List.mem_append.mp hr
      · exact h.closed r hold
      · rw [List.mem_singleton.mp hnew]
        simp

theorem of_guarded {o : Option Reservation} {c : Reservation → Prop} [DecidablePred c]
    {g : Reservation → State} {t : State}
    (h : (o.bind fun r => if c r then some (g r) else none) = some t) : ∃ r, o = some r ∧ c r ∧ t = g r := by
  obtain ⟨r, hr, ht⟩ := Option.bind_eq_some_iff.mp h
  split at ht
  case isTrue hc => exact ⟨r, hr, hc, (Option.some.inj ht).symm⟩
  case isFalse => cases ht

theorem Linked.saved {s : State} (h : Linked s) {r : Reservation} {i : Id}
    (hr : s.reservations[i]? = some r) (id : Id) (hid : r.saved = some id) :
    Opened s.reservations id := h.links r (List.mem_of_getElem? hr) id (.inr hid)

/-- Every event keeps the links. -/
theorem Linked.step {b : Budget} {s t : State} {event : Event} (h : Linked s)
    (hstep : apply b s event = some t) : Linked t := by
  cases event with
  | spawn task child =>
    cases hstep
    exact h.inContexts (opened_update h.contexts fun id hid => h.contexts task id hid)
  | enter task size owner childBytes =>
    cases hstep
    exact h.enter task size owner childBytes
  | grant id =>
    obtain ⟨r, hr, ⟨hwaiting, -, -, -⟩, rfl⟩ := of_guarded hstep
    have hmoved := h.move r.parent r.total 1
    have hget := move_get hr r.parent r.total 1
    have hchosen : Linked ((s.charge r).update id fun r => {r with phase := .live, saved := s.contexts r.task}) := by
      refine hmoved.modify (keeps_live s.contexts) (fun _ _ _ => rfl) (fun r' hr' k hk => ?_) fun r' hr' => ?_
      · exact hmoved.contexts r'.task k (by rw [move_contexts]; exact hk)
      · cases hget.symm.trans hr'
        have hclosed := h.closed r (List.mem_of_getElem? hr)
        rw [hwaiting] at hclosed
        simpa using hclosed
    refine hchosen.inContexts (opened_update hchosen.contexts fun k hk => ?_)
    split at hk
    case isTrue => cases hk
    case isFalse hchildren =>
      cases hk
      refine ⟨{r with
        phase := .live, available := r.available - if r.parent = some id then r.total else 0
        saved := s.contexts r.task}, ?_, rfl, hchildren⟩
      show ((s.move r.parent r.total 1).reservations.modify id _)[id]? = _
      rw [List.getElem?_modify, hget]
      simp
  | defer id =>
    obtain ⟨r, hr, hwaiting, rfl⟩ := of_guarded hstep
    refine h.modify (keeps_phase .deferred) (fun r' hr' hgranted => ?_)
      (fun r' hr' k hk => h.saved hr' k hk) fun r' hr' => ?_
    · cases hr.symm.trans hr'
      rw [Reservation.granted, hwaiting] at hgranted
      cases hgranted
    · cases hr.symm.trans hr'
      have hclosed := h.closed r (List.mem_of_getElem? hr)
      rw [hwaiting] at hclosed
      simpa using hclosed
  | leave id =>
    obtain ⟨r, hr, hlive, rfl⟩ := of_guarded hstep
    have hleft : Linked (s.update id fun r => {r with phase := .leaving}) := by
      refine h.modify (keeps_phase .leaving) (fun _ _ _ => rfl) (fun r' hr' k hk => h.saved hr' k hk) fun r' hr' => ?_
      cases hr.symm.trans hr'
      have hclosed := h.closed r (List.mem_of_getElem? hr)
      rw [hlive] at hclosed
      simpa using hclosed
    refine hleft.inContexts (opened_update hleft.contexts fun k hk => ?_)
    exact (h.saved hr k hk).modify (keeps_phase .leaving) fun _ _ _ => rfl
  | close id =>
    obtain ⟨r, hr, hleaving, rfl⟩ := of_guarded hstep
    refine h.modify keeps_closing (fun _ _ _ => rfl) (fun r' hr' k hk => h.saved hr' k hk) fun r' hr' => ?_
    simp
  | release id =>
    obtain ⟨r, hr, ⟨hclosing, -⟩, rfl⟩ := of_guarded hstep
    have hmoved := h.move r.parent (-r.total) (-1)
    have hget := move_get hr r.parent (-r.total) (-1)
    have hexited : Linked ((s.discharge r).update id fun r => {r with phase := .exited}) := by
      refine hmoved.modify (keeps_phase .exited) (fun _ _ _ => rfl)
        (fun r' hr' k hk => hmoved.saved hr' k hk) fun r' hr' => ?_
      cases hget.symm.trans hr'
      have hclosed := h.closed r (List.mem_of_getElem? hr)
      rw [hclosing] at hclosed
      simpa using hclosed
    exact hexited.inContexts hexited.contexts

/-! ### The invariant -/

/-- What is charged is what is held, and is within bounds. -/
structure Inv (b : Budget) (s : State) : Prop where
  used : s.used = charged s.reservations none
  active : s.active = operations s.reservations
  allowance : ∀ i r, s.reservations[i]? = some r →
    r.available + charged s.reservations (some i) = r.childBytes ∧ 0 ≤ r.available
  formed : ∀ r ∈ s.reservations, 0 < r.size ∧ 0 ≤ r.childBytes
  bounded : s.used ≤ b.capacity ∧ s.active ≤ b.maxOperations
  owners : ∀ owner, owner ∈ s.owners ↔ owner ∈ holders s.reservations
  distinct : (holders s.reservations).Nodup

theorem total_pos {r : Reservation} (h : 0 < r.size ∧ 0 ≤ r.childBytes) : 0 < r.total := by
  unfold Reservation.total
  omega

theorem validate_formed {b : Budget} {size childBytes total : Int}
    (h : validate b size childBytes = .ok total) : 0 < size ∧ 0 ≤ childBytes := by
  unfold validate at h
  split at h
  case isTrue => cases h
  case isFalse =>
    split at h
    case isTrue => cases h
    case isFalse => omega

/-- The empty budget is accounted for. -/
theorem inv_initial (b : Budget) : Inv b {} where
  used := rfl
  active := rfl
  allowance _ _ h := absurd h.symm (Option.some_ne_none _)
  formed _ h := absurd h List.not_mem_nil
  bounded := ⟨Int.natCast_nonneg _, Int.natCast_nonneg _⟩
  owners owner := by simp [holders]
  distinct := List.nodup_nil

theorem charged_zero {reservations : List Reservation} {parent : Option Id}
    (h : ∀ r ∈ reservations, share parent r = 0) :
    charged reservations parent = 0 := by
  induction reservations with
  | nil => rfl
  | cons r rest ih =>
    rw [List.forall_mem_cons] at h
    have hrest := ih h.2
    rw [charged] at hrest
    rw [charged, List.map_cons, List.sum_cons, hrest, h.1]
    rfl

/-- A new reservation waits, and is charged to nothing. -/
theorem Inv.enter {b : Budget} {s : State} (h : Inv b s) (hlinked : Linked s) (task : Id)
    (size : Int) (owner : String) (childBytes : Int) :
    Inv b (s.enter b task size owner childBytes) := by
  have hentered := hlinked.enter (b := b) task size owner childBytes
  unfold State.enter at hentered ⊢
  cases hvalid : validate b size childBytes with
  | error message => exact h
  | ok total =>
    rw [hvalid] at hentered
    dsimp only at hentered ⊢
    generalize (if s.closed (s.contexts task) then none else s.contexts task) = parent at hentered ⊢
    have hformed := validate_formed hvalid
    generalize hnew :
      (⟨task, size, owner, childBytes, parent, .waiting, childBytes, false, none⟩ : Reservation) =
      new at hentered ⊢
    have hwaiting : new.held = false := by rw [← hnew]; rfl
    have hcharged (p : Option Id) : charged (s.reservations ++ [new]) p = charged s.reservations p := by
      simp [charged, share, hwaiting]
    have hoperations : operations (s.reservations ++ [new]) = operations s.reservations := by
      simp [operations, hwaiting]
    have hholders : holders (s.reservations ++ [new]) = holders s.reservations := by
      simp [holders, hwaiting]
    refine ⟨?_, ?_, fun i r hr => ?_, fun r hr => ?_, h.bounded, fun owner => ?_, ?_⟩
    · rw [hcharged]
      exact h.used
    · rw [hoperations]
      exact h.active
    · rw [hcharged]
      obtain hold | ⟨hi, hr⟩ : s.reservations[i]? = some r ∨ s.reservations.length ≤ i ∧ r = new := by
        by_cases hi : i < s.reservations.length
        · rw [List.getElem?_append_left hi] at hr
          exact .inl hr
        · have hi := Nat.le_of_not_lt hi
          rw [List.getElem?_append_right hi] at hr
          exact .inr ⟨hi, List.mem_singleton.mp (List.mem_of_getElem? hr)⟩
      · exact h.allowance i r hold
      · have hnone : charged s.reservations (some i) = 0 := charged_zero fun r' hr' => if_neg fun hshare => by
          obtain ⟨q, hq, -⟩ := hlinked.links r' hr' i (.inl hshare.2)
          exact absurd (List.getElem?_eq_some_iff.mp hq).1 (Nat.not_lt.mpr hi)
        rw [hnone, hr, ← hnew]
        exact ⟨Int.add_zero _, hformed.2⟩
    · obtain hold | hnewest := List.mem_append.mp hr
      · exact h.formed r hold
      · rw [List.mem_singleton.mp hnewest, ← hnew]
        exact hformed
    · rw [hholders]
      exact h.owners owner
    · rw [hholders]
      exact h.distinct

/-- A reservation goes on as it was. -/
theorem Inv.kept {b : Budget} {s : State} (h : Inv b s) {i : Id} {f : Reservation → Reservation} (hf : Keeps f)
    (havailable : ∀ r, (f r).available = r.available)
    (hheld : ∀ r, s.reservations[i]? = some r → (f r).held = r.held) (contexts : Id → Option Id) :
    Inv b {s.update i f with contexts := contexts} where
  used := h.used.trans (charged_kept hf hheld none).symm
  active := h.active.trans (congrArg Nat.cast (operations_kept hf hheld).symm)
  allowance j r hr := by
    show r.available + charged (s.reservations.modify i f) (some j) = _ ∧ _
    rw [charged_kept hf hheld]
    obtain ⟨old, hold, heq⟩ := get_modify hr
    have hallowance := h.allowance j old hold
    obtain rfl | ⟨-, rfl⟩ := heq
    · exact hallowance
    · rw [havailable, hf.childBytes]
      exact hallowance
  formed r' hr' := by
    obtain hold | ⟨r, hr, rfl⟩ := mem_modify hr'
    · exact h.formed r' hold
    · rw [hf.size, hf.childBytes]
      exact h.formed r (List.mem_of_getElem? hr)
  bounded := h.bounded
  owners owner := by
    show owner ∈ s.owners ↔ owner ∈ holders (s.reservations.modify i f)
    rw [holders_kept hf hheld]
    exact h.owners owner
  distinct := by
    show (holders (s.reservations.modify i f)).Nodup
    rw [holders_kept hf hheld]
    exact h.distinct

section Move
variable (s : State) (parent : Option Id) (bytes count : Int)

/-- A move changes what is available, and no reservation besides. -/
theorem move_reservations : (s.move parent bytes count).reservations = s.reservations ∨
    ∃ i, (s.move parent bytes count).reservations = s.reservations.modify i fun r =>
    {r with available := r.available - bytes} := by
  cases parent with
  | none => exact .inl rfl
  | some parent => exact .inr ⟨parent, rfl⟩

theorem charged_move (p : Option Id) :
    charged (s.move parent bytes count).reservations p = charged s.reservations p := by
  obtain heq | ⟨i, heq⟩ := move_reservations s parent bytes count <;> rw [heq]
  exact charged_kept (keeps_available bytes) (fun _ _ => rfl) p

theorem operations_move : operations (s.move parent bytes count).reservations = operations s.reservations := by
  obtain heq | ⟨i, heq⟩ := move_reservations s parent bytes count <;> rw [heq]
  exact operations_kept (keeps_available bytes) fun _ _ => rfl

theorem holders_move : holders (s.move parent bytes count).reservations = holders s.reservations := by
  obtain heq | ⟨i, heq⟩ := move_reservations s parent bytes count <;> rw [heq]
  exact holders_kept (keeps_available bytes) fun _ _ => rfl

theorem move_used : (s.move parent bytes count).used = s.used + if parent = none then bytes else 0 := by
  cases parent with
  | none => rfl
  | some parent => simp [State.move]

theorem move_active : (s.move parent bytes count).active = s.active + if parent = none then count else 0 := by
  cases parent with
  | none => rfl
  | some parent => simp [State.move]

/-- What was there before a move. -/
theorem get_of_move {j : Id} {q : Reservation} (h : (s.move parent bytes count).reservations[j]? = some q) :
    ∃ old, s.reservations[j]? = some old ∧
    q = {old with available := old.available - if parent = some j then bytes else 0} := by
  cases hold : s.reservations[j]? with
  | none =>
    refine absurd h ?_
    obtain heq | ⟨i, heq⟩ := move_reservations s parent bytes count
    · rw [heq, hold]
      exact nofun
    · rw [heq, List.getElem?_modify, hold]
      exact nofun
  | some old => exact ⟨old, rfl, Option.some.inj (h.symm.trans (move_get hold parent bytes count))⟩

end Move

/-- Where a reservation begins or ends to be held, its bytes are moved. -/
theorem Inv.moved {b : Budget} {s : State} (h : Inv b s) {i : Id} {r : Reservation}
    (hr : s.reservations[i]? = some r) {f : Reservation → Reservation}
    (hf : Keeps f) (havailable : ∀ r, (f r).available = r.available) {held : Bool}
    (hheld : ∀ r, (f r).held = held) (count : Int) {bytes : Int}
    (hbytes : bytes = (if held = true then r.total else 0) - if r.held = true then r.total else 0) :
    (s.move r.parent bytes count).used = charged ((s.move r.parent bytes count).update i f).reservations none ∧
      (∀ j q, ((s.move r.parent bytes count).update i f).reservations[j]? = some q →
        q.available + charged ((s.move r.parent bytes count).update i f).reservations (some j) = q.childBytes) ∧
      ∀ q ∈ ((s.move r.parent bytes count).update i f).reservations, 0 < q.size ∧ 0 ≤ q.childBytes := by
  have hget := move_get hr r.parent bytes count
  have hcharged (p : Option Id) : charged ((s.move r.parent bytes count).update i f).reservations p =
      charged s.reservations p + if r.parent = p then bytes else 0 := by
    show charged ((s.move r.parent bytes count).reservations.modify i f) p = _
    rw [charged_modify hget, charged_move, hf.share, hheld, share, hbytes]
    by_cases hp : r.parent = p
    · simp [hp, Reservation.total, Reservation.held]
    · simp [hp]
  refine ⟨?_, fun j q hq => ?_, fun q hq => ?_⟩
  · rw [hcharged, move_used, h.used]
  · rw [hcharged]
    obtain ⟨before, hbefore, heq⟩ := get_modify hq
    obtain ⟨old, hold, rfl⟩ := get_of_move s r.parent bytes count hbefore
    have hallowance := (h.allowance j old hold).1
    obtain rfl | ⟨-, rfl⟩ := heq
    · dsimp only
      omega
    · rw [havailable, hf.childBytes]
      dsimp only
      omega
  · have hformed : ∀ q ∈ (s.move r.parent bytes count).reservations, 0 < q.size ∧ 0 ≤ q.childBytes := fun q hq => by
      obtain ⟨j, hj⟩ := List.mem_iff_getElem?.mp hq
      obtain ⟨old, hold, rfl⟩ := get_of_move s r.parent bytes count hj
      exact h.formed old (List.mem_of_getElem? hold)
    obtain hold | ⟨old, hold, rfl⟩ := mem_modify hq
    · exact hformed q hold
    · rw [hf.size, hf.childBytes]
      exact hformed old (List.mem_of_getElem? hold)

/-- What is available after a move is not negative, where it was enough. -/
theorem Inv.available {b : Budget} {s : State} (h : Inv b s) {i j : Id} {parent : Option Id}
    {f : Reservation → Reservation} {bytes count : Int}
    {q : Reservation} (hq : ((s.move parent bytes count).update i f).reservations[j]? = some q)
    (havailable : ∀ r, (f r).available = r.available)
    (henough : ∀ j old, s.reservations[j]? = some old → parent = some j → bytes ≤ old.available) : 0 ≤ q.available := by
  obtain ⟨before, hbefore, heq⟩ := get_modify hq
  obtain ⟨old, hold, rfl⟩ := get_of_move s parent bytes count hbefore
  have hleft : 0 ≤ old.available - if parent = some j then bytes else 0 := by
    have hnonneg := (h.allowance j old hold).2
    split
    case isTrue hparent =>
      have henough := henough j old hold hparent
      omega
    case isFalse => omega
  obtain rfl | ⟨-, rfl⟩ := heq
  · exact hleft
  · rw [havailable]
    exact hleft

/-- A grant is accounted for. -/
theorem Inv.grant {b : Budget} {s t : State} {id : Id} (h : Inv b s) (hgrant : s.grant b id = some t) : Inv b t := by
  obtain ⟨r, hr, ⟨hwaiting, -, hfits, howner⟩, rfl⟩ := of_guarded hgrant
  have hfree : r.held = false := by simp [Reservation.held, hwaiting]
  have hget := move_get hr r.parent r.total 1
  have hkeeps := keeps_live s.contexts
  have hbytes : r.total = (if true = true then r.total else 0) - if r.held = true then r.total else 0 := by simp [hfree]
  obtain ⟨hused, hallowance, hformed⟩ := h.moved hr hkeeps (fun _ => rfl) (fun _ => rfl) 1 hbytes
  have hholders : (holders ((s.charge r).update id fun r =>
      {r with phase := .live, saved := s.contexts r.task}).reservations).Perm
      (r.owner :: holders s.reservations) := by
    have hperm := holders_begin hget hkeeps hfree rfl
    rw [holders_move] at hperm
    exact hperm
  have hleft : ∀ (j : Id) (q : Reservation), ((s.charge r).update id fun r => {r with
      phase := .live, saved := s.contexts r.task}).reservations[j]? = some q → 0 ≤ q.available := by
    refine fun j q hq => h.available hq (fun _ => rfl) fun j old hold hparent => ?_
    rw [State.fits, hparent] at hfits
    dsimp only at hfits
    rw [hold] at hfits
    exact of_decide_eq_true hfits
  refine ⟨hused, ?_, fun j q hq => ⟨hallowance j q hq, hleft j q hq⟩, hformed, ?_, fun owner => ?_, ?_⟩
  · have hoperations := operations_begin hget hkeeps hfree rfl
    rw [operations_move] at hoperations
    show (s.move r.parent r.total 1).active = (operations ((s.move r.parent r.total 1).reservations.modify id _) : Int)
    rw [hoperations, move_active, h.active]
    dsimp only
    split
    · rfl
    · rfl
  · show (s.move r.parent r.total 1).used ≤ _ ∧ (s.move r.parent r.total 1).active ≤ _
    have hbounded := h.bounded
    rw [move_used, move_active]
    rw [State.fits] at hfits
    cases hparent : r.parent with
    | none =>
      rw [hparent] at hfits
      simp only [Bool.and_eq_true, decide_eq_true_eq] at hfits
      simp only [if_true]
      omega
    | some parent =>
      simp only [reduceCtorEq, if_false]
      omega
  · show owner ∈ insert r.owner (s.move r.parent r.total 1).owners ↔ _
    rw [move_owners, Finset.mem_insert, h.owners, hholders.mem_iff, List.mem_cons]
  · exact hholders.nodup_iff.mpr (List.nodup_cons.mpr ⟨fun hmem => howner ((h.owners _).mpr hmem), h.distinct⟩)

/-- A release is accounted for. -/
theorem Inv.release {s t : State} {b : Budget} {id : Id} (h : Inv b s)
    (hrelease : s.release id = some t) : Inv b t := by
  obtain ⟨r, hr, ⟨hclosing, -⟩, rfl⟩ := of_guarded hrelease
  have hheld : r.held = true := by simp [Reservation.held, hclosing]
  have hget := move_get hr r.parent (-r.total) (-1)
  have htotal := total_pos (h.formed r (List.mem_of_getElem? hr))
  have hbytes : -r.total = (if false = true then r.total else 0) - if r.held = true then r.total
      else 0 := by simp [hheld]
  obtain ⟨hused, hallowance, hformed⟩ := h.moved hr (keeps_phase .exited) (fun _ => rfl) (fun _ => rfl) (-1) hbytes
  have hholders : (holders s.reservations).Perm
      (r.owner :: holders ((s.discharge r).update id fun r => {r with phase := .exited}).reservations) := by
    have hperm := holders_end (f := fun r => {r with phase := .exited}) hget hheld rfl
    rw [holders_move] at hperm
    exact hperm
  have hdistinct := List.nodup_cons.mp (hholders.nodup_iff.mp h.distinct)
  have hleft : ∀ (j : Id) (q : Reservation),
      ((s.discharge r).update id fun r => {r with phase := .exited}).reservations[j]? = some q →
      0 ≤ q.available := by
    refine fun j q hq => h.available hq (fun _ => rfl) fun j old hold _ => ?_
    have hnonneg := (h.allowance j old hold).2
    omega
  refine ⟨hused, ?_, fun j q hq => ⟨hallowance j q hq, hleft j q hq⟩, hformed, ?_, fun owner => ?_, hdistinct.2⟩
  · have hoperations := operations_end (f := fun r => {r with phase := .exited}) hget hheld rfl
    rw [operations_move] at hoperations
    show (s.move r.parent (-r.total) (-1)).active =
        (operations ((s.move r.parent (-r.total) (-1)).reservations.modify id _) : Int)
    rw [move_active, h.active, hoperations]
    dsimp only
    split
    · omega
    · omega
  · show (s.move r.parent (-r.total) (-1)).used ≤ _ ∧ (s.move r.parent (-r.total) (-1)).active ≤ _
    have hbounded := h.bounded
    rw [move_used, move_active]
    split
    · omega
    · omega
  · show owner ∈ (s.move r.parent (-r.total) (-1)).owners.erase r.owner ↔ _
    rw [move_owners, Finset.mem_erase, h.owners, hholders.mem_iff, List.mem_cons]
    constructor
    · rintro ⟨hne, heq | hmem⟩
      · exact absurd heq hne
      · exact hmem
    · intro hmem
      refine ⟨?_, .inr hmem⟩
      rintro rfl
      exact hdistinct.1 hmem

/-- Every event is accounted for. -/
theorem Inv.step {b : Budget} {s t : State} {event : Event} (h : Inv b s) (hlinked : Linked s)
    (hstep : apply b s event = some t) : Inv b t := by
  cases event with
  | spawn task child =>
    cases hstep
    exact ⟨h.used, h.active, h.allowance, h.formed, h.bounded, h.owners, h.distinct⟩
  | enter task size owner childBytes =>
    cases hstep
    exact h.enter hlinked task size owner childBytes
  | grant id => exact h.grant hstep
  | defer id =>
    obtain ⟨r, hr, hwaiting, rfl⟩ := of_guarded hstep
    refine h.kept (keeps_phase .deferred) (fun _ => rfl) (fun r' hr' => ?_) s.contexts
    cases hr.symm.trans hr'
    simp [Reservation.held, hwaiting]
  | leave id =>
    obtain ⟨r, hr, hlive, rfl⟩ := of_guarded hstep
    refine h.kept (keeps_phase .leaving) (fun _ => rfl) (fun r' hr' => ?_) _
    cases hr.symm.trans hr'
    simp [Reservation.held, hlive]
  | close id =>
    obtain ⟨r, hr, hleaving, rfl⟩ := of_guarded hstep
    refine h.kept keeps_closing (fun _ => rfl) (fun r' hr' => ?_) s.contexts
    cases hr.symm.trans hr'
    simp [Reservation.held, hleaving]
  | release id => exact h.release hstep

/-- The account holds over every run. -/
theorem inv_run {b : Budget} {s : State} {events : List Event}
    (h : Steps (Executes (apply b)) {} events s) : Linked s ∧ Inv b s := by
  have hinitial : Linked {} := by constructor <;> simp
  exact h.invariant (P := fun s => Linked s ∧ Inv b s)
    (fun _ _ _ ⟨hlinked, hinv⟩ hstep => ⟨hlinked.step hstep, hinv.step hlinked hstep⟩)
    ⟨hinitial, inv_initial b⟩

/-- A child takes the whole allowance of its parent, while another task asks for the same owner until it is
cancelled. -/
def nested : List Event :=
  [.enter 0 40 "parent" 60, .grant 0, .spawn 0 1, .enter 0 60 "child" 0, .enter 1 1 "parent" 0,
    .grant 1, .leave 0, .close 0, .defer 2, .leave 1, .close 1,
    .release 1, .release 0]

end Galaris.Core.ByteBudget
