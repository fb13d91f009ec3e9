import Galaris.Llm.InferenceMoves
import Galaris.Base.Results

/-! The lifecycle of inferences over whole runs.

Each operation advances every inference by moves (`Advances`), under the lock of the one it is about. A
command adds its receipt; a client that pages has received the messages up to its cursor (`Reads`). -/
namespace Galaris.Llm.InferenceStore

open Transition Results

/-! ### Operations -/

/-- An inference that has just been created. -/
structure Initial (key : Id) (inf : Inference) : Prop where
  id : inf.id = key
  inv : Inv inf
  empty : inf.events = []

/-- What is done to the row of an inference: it is created, or it is there; and it is moved. -/
inductive Advance (key : Id) : Option Inference → Option Inference → Prop
  | absent : Advance key none none
  | created {inf inf' : Inference} (initial : Initial key inf) (moves : Moves inf inf') : Advance key none (some inf')
  | moves {inf inf' : Inference} (moves : Moves inf inf') : Advance key (some inf) (some inf')

namespace Advance

variable {key : Id}

theorem refl : ∀ inf, Advance key inf inf
  | none => .absent
  | some _ => .moves .refl

theorem trans {a b c : Option Inference} (h : Advance key a b) (k : Advance key b c) : Advance key a c := by
  cases h with
  | absent => exact k
  | created initial moves => cases k with | moves more => exact .created initial (moves.trans more)
  | moves moves => cases k with | moves more => exact .moves (moves.trans more)

end Advance

/-- What identifies a command. -/
def Command.identity (command : Command) : Id × Id × Action × Option Nat :=
  (command.id, command.inference, command.action, command.expectedRevision)

structure Advances (s s' : Store) : Prop where
  inferences : ∀ key, Advance key (s.inferences key) (s'.inferences key)
  commands : s'.commands.map Command.identity = s.commands.map Command.identity

structure StoreInv (s : Store) : Prop where
  ids : ∀ key inf, s.inferences key = some inf → inf.id = key
  inferences : ∀ key inf, s.inferences key = some inf → Inv inf
  commands : (s.commands.map Command.id).Nodup
  stops : ∀ command ∈ s.commands, command.action = .stop → ∃ inf,
    s.inferences command.inference = some inf ∧ inf.status.halted = true

namespace Advances

variable {s s' s'' : Store}

theorem refl (s : Store) : Advances s s := ⟨fun _ => .refl _, rfl⟩

theorem trans (h : Advances s s') (k : Advances s' s'') : Advances s s'' :=
  ⟨fun key => (h.inferences key).trans (k.inferences key), k.commands.trans h.commands⟩

/-- What was there is there, later. -/
theorem later (h : Advances s s') (hinv : StoreInv s) {key : Id} {inf : Inference}
    (hkey : s.inferences key = some inf) :
    ∃ inf', s'.inferences key = some inf' ∧ Later inf inf' := by
  have hadvance := h.inferences key
  rw [hkey] at hadvance
  cases hnext : s'.inferences key with
  | none =>
    rw [hnext] at hadvance
    cases hadvance
  | some inf' =>
    rw [hnext] at hadvance
    cases hadvance with
    | moves moves => exact ⟨inf', rfl, (moves.spec (hinv.inferences key inf hkey)).2⟩

theorem storeInv (h : Advances s s') (hinv : StoreInv s) : StoreInv s' := by
  have hkeys : ∀ key inf', s'.inferences key = some inf' → inf'.id = key ∧ Inv inf' := by
    intro key inf' hkey
    have hadvance := h.inferences key
    rw [hkey] at hadvance
    cases hprevious : s.inferences key with
    | none =>
      rw [hprevious] at hadvance
      cases hadvance with
      | created initial moves =>
        obtain ⟨hinv', hlater⟩ := moves.spec initial.inv
        exact ⟨hlater.id.trans initial.id, hinv'⟩
    | some inf =>
      rw [hprevious] at hadvance
      cases hadvance with
      | moves moves =>
        obtain ⟨hinv', hlater⟩ := moves.spec (hinv.inferences key inf hprevious)
        exact ⟨hlater.id.trans (hinv.ids key inf hprevious), hinv'⟩
  refine ⟨fun key inf' hkey => (hkeys key inf' hkey).1,
    fun key inf' hkey => (hkeys key inf' hkey).2, ?_, fun command hcommand hstop => ?_⟩
  · have hids := congrArg (List.map Prod.fst) h.commands
    rw [List.map_map, List.map_map] at hids
    exact (congrArg List.Nodup hids).mpr hinv.commands
  · have hmem : command.identity ∈ s.commands.map Command.identity := h.commands ▸ List.mem_map_of_mem hcommand
    obtain ⟨previous, hprevious, hidentity⟩ := List.mem_map.mp hmem
    obtain ⟨-, hsame⟩ := Prod.mk.inj hidentity
    obtain ⟨hinference, hsame⟩ := Prod.mk.inj hsame
    obtain ⟨inf, hkey, hhalted⟩ := hinv.stops previous hprevious ((Prod.mk.inj hsame).1.trans hstop)
    obtain ⟨inf', hkey', hlater⟩ := h.later hinv hkey
    exact ⟨inf', hinference ▸ hkey', hlater.halted hhalted⟩

end Advances

namespace Store

variable {s s' : Store} {key : Id} {inf inf' : Inference} {a : Attempt}

theorem put_self (s : Store) (inf : Inference) : (s.put inf).inferences inf.id = some inf := Function.update_self _ _ _

theorem put_key (s : Store) (h : inf.id = key) : (s.put inf).inferences key = some inf := h ▸ put_self s inf

theorem put_of_ne (s : Store) (h : key ≠ inf.id) : (s.put inf).inferences key = s.inferences key :=
    Function.update_of_ne h _ _

theorem locked_spec (h : s.locked key = .ok (inf, a)) : s.inferences key = some inf ∧ inf.current = some a := by
  unfold locked at h
  split at h
  case h_1 => cases h
  case h_2 found hfound =>
    split at h
    case h_1 => cases h
    case h_2 attempt hattempt =>
      obtain ⟨rfl, rfl⟩ := Prod.mk.inj (Except.ok.inj h)
      exact ⟨hfound, hattempt⟩

/-- The worker has the current token, and its lease has not expired. -/
def Owns (s : Store) (owner : Owner) (now : Nat) : Prop :=
  ∃ inf a expiry, s.inferences owner.inference = some inf ∧ inf.current = some a ∧ a.number = owner.attempt ∧
    a.leaseToken = some owner.token ∧ a.status = .running ∧ a.leaseExpiresAt = some expiry ∧ now < expiry

theorem owned_spec {owner : Owner} {now : Nat} (h : s.owned owner now = .ok (inf, a)) :
    s.inferences owner.inference = some inf ∧ inf.current = some a ∧ a.number = owner.attempt ∧
        a.status = .running ∧ s.Owns owner now := by
  unfold owned at h
  obtain ⟨⟨found, attempt⟩, hlocked, h⟩ := bind_eq_ok.mp h
  dsimp only at h
  split at h
  case isTrue => cases h
  case isFalse howned =>
    obtain ⟨rfl, rfl⟩ := Prod.mk.inj (Except.ok.inj h)
    obtain ⟨hfound, hcurrent⟩ := locked_spec hlocked
    simp only [Bool.or_eq_true, not_or, decide_eq_true_eq, ne_eq, Decidable.not_not,
      Bool.not_eq_true', Bool.not_eq_false, Option.any_eq_true] at howned
    obtain ⟨⟨⟨hnumber, htoken⟩, hrunning⟩, expiry, hexpiry, hlater⟩ := howned
    exact ⟨hfound, hcurrent, hnumber, hrunning, found, attempt, expiry, hfound, hcurrent, hnumber,
      htoken, hrunning, hexpiry, hlater⟩

/-- The inference under the lock is written back after its moves. -/
theorem put_advances (hinv : StoreInv s) (hkey : s.inferences key = some inf) (h : Moves inf inf') :
    Advances s (s.put inf') := by
  have hid : inf'.id = key := (h.spec (hinv.inferences key inf hkey)).2.id.trans (hinv.ids key inf hkey)
  refine ⟨fun other => ?_, rfl⟩
  by_cases hother : other = key
  · rw [hother, hkey, ← hid, put_self]
    exact .moves h
  · rw [put_of_ne s (hid ▸ hother)]
    exact .refl _

theorem settled_commands (s : Store) (inference attempt now : Nat) :
    (s.settled inference attempt now).commands.map Command.identity = s.commands.map Command.identity := by
  unfold settled
  rw [List.map_map]
  refine List.map_congr_left fun command _ => ?_
  show Command.identity (if _ then _ else _) = _
  split <;> rfl

theorem finishAttempt_advances {base : Inference} {result : AIResult} {status : Status} {now : Nat} (hinv : StoreInv s)
    (hkey : s.inferences key = some base) (hmoves : Moves base inf) (ha : inf.current = some a)
    (hterminal : status.terminal = true)
    (hobeys : ∀ goal, requested inf.status = some goal → status = goal)
    (h : s.finishAttempt inf a result status now = .ok s') :
    Advances s s' := by
  unfold finishAttempt at h
  split at h
  case isTrue => cases h
  case isFalse hopen =>
    obtain rfl := Except.ok.inj h
    obtain ⟨hinferences, hcommands⟩ := put_advances hinv hkey
      (hmoves.tail (.finish ha (Bool.not_eq_true _ ▸ hopen) hterminal hobeys))
    exact ⟨hinferences, (settled_commands _ _ _ _).trans hcommands⟩

end Store

/-- The journal of an attempt is appended to; the rows of its attempts stay. -/
structure Journals (inf inf' : Inference) : Prop where
  moves : Moves inf inf'
  status : inf'.status = inf.status
  current : inf'.current = inf.current
  calls : ∀ call ∈ inf.calls, ∃ row ∈ inf'.calls, row.id = call.id ∧ row.attempt = call.attempt

namespace Journals

variable {inf inf' inf'' : Inference} {a : Attempt}

theorem refl (inf : Inference) : Journals inf inf := ⟨.refl, rfl, rfl, fun call hcall => ⟨call, hcall, rfl, rfl⟩⟩

theorem trans (h : Journals inf inf') (k : Journals inf' inf'') : Journals inf inf'' := by
  refine ⟨h.moves.trans k.moves, k.status.trans h.status, k.current.trans h.current, fun call hcall => ?_⟩
  obtain ⟨row, hrow, hid, hattempt⟩ := h.calls call hcall
  obtain ⟨row', hrow', hid', hattempt'⟩ := k.calls row hrow
  exact ⟨row', hrow', hid'.trans hid, hattempt'.trans hattempt⟩

theorem append {call : Call} {event : CallEvent} (ha : inf.current = some a)
    (hopen : a.status.terminal = false) (hcall : call ∈ inf.calls)
    (hattempt : call.attempt = a.number) (hevent : event.call = call.id)
    (hnext : event.inferenceSequence = some (inf.eventSequence + 1)) :
    Journals inf {inf with eventSequence := inf.eventSequence + 1, events := inf.events ++ [event]} :=
  ⟨.single (.append ha hopen hcall hattempt hevent hnext), rfl, rfl, fun row hrow => ⟨row, hrow, rfl, rfl⟩⟩

theorem settle {f : Call → Call} (hsame : ∀ call, (f call).id = call.id ∧ (f call).attempt = call.attempt) :
    Journals inf {inf with calls := inf.calls.map f} :=
  ⟨.single (.calls hsame), rfl, rfl, fun call hcall => ⟨f call, List.mem_map_of_mem hcall, hsame call⟩⟩

theorem closeCall {error : String} {call : Call} (ha : inf.current = some a) (hopen : a.status.terminal = false)
    (hcall : ∃ row ∈ inf.calls, row.id = call.id ∧ row.attempt = a.number)
    (h : closeCall error inf call = .ok inf') : Journals inf inf' := by
  have hsettle : Journals inf (if call.running then
      {inf with calls := inf.calls.map fun other => if other.id = call.id then {other with
        running := false, error := some error} else other}
      else inf) := by
    split
    case isTrue =>
      refine settle fun other => ?_
      split <;> exact ⟨rfl, rfl⟩
    case isFalse => exact refl inf
  unfold InferenceStore.closeCall at h
  dsimp only at h
  generalize (if call.running then _ else _ : Inference) = closed at h hsettle
  split at h
  case h_1 =>
    obtain rfl := Except.ok.inj h
    exact hsettle
  case h_2 last _ =>
    split at h
    case isTrue =>
      obtain rfl := Except.ok.inj h
      exact hsettle
    case isFalse =>
      obtain ⟨result, -, h⟩ := bind_eq_ok.mp h
      obtain rfl := Except.ok.inj h
      obtain ⟨row, hrow, hid, hattempt⟩ := hcall
      obtain ⟨row', hrow', hid', hattempt'⟩ := hsettle.calls row hrow
      refine hsettle.trans (append (hsettle.current.trans ha) hopen hrow' (hattempt'.trans hattempt) ?_ rfl)
      exact (hid'.trans hid).symm

theorem closeAbandonedCalls {attempt : Nat} {error : String} (ha : inf.current = some a)
    (hopen : a.status.terminal = false)
    (hattempt : a.number = attempt) (h : closeAbandonedCalls inf attempt error = .ok inf') : Journals inf inf' := by
  have hfold : ∀ (calls : List Call) (start : Inference), Journals inf start →
      (∀ call ∈ calls, ∃ row ∈ inf.calls, row.id = call.id ∧ row.attempt = a.number) →
      calls.foldlM (InferenceStore.closeCall error) start = .ok inf' → Journals inf inf' := by
    intro calls
    induction calls with
    | nil =>
      intro start hstart _ hdone
      obtain rfl := Except.ok.inj hdone
      exact hstart
    | cons call rest ih =>
      intro start hstart hcalls hdone
      rw [List.foldlM_cons] at hdone
      obtain ⟨next, hnext, hrest⟩ := bind_eq_ok.mp hdone
      obtain ⟨row, hrow, hid, hnumber⟩ := hcalls call List.mem_cons_self
      obtain ⟨row', hrow', hid', hnumber'⟩ := hstart.calls row hrow
      have hclosed := closeCall (hstart.current.trans ha) hopen
          ⟨row', hrow', hid'.trans hid, hnumber'.trans hnumber⟩ hnext
      exact ih next (hstart.trans hclosed) (fun other hother => hcalls other (List.mem_cons_of_mem _ hother)) hrest
  refine hfold _ inf (refl inf) (fun call hcall => ?_) h
  obtain ⟨hmem, hnumber⟩ := List.mem_filter.mp hcall
  exact ⟨call, hmem, rfl, (of_decide_eq_true hnumber).trans hattempt.symm⟩

/-- Payloads are appended next to the journal of a call. -/
theorem foldl_append {call : Call} {payloads : List Payload} (ha : inf.current = some a)
    (hopen : a.status.terminal = false)
    (hcall : call ∈ inf.calls) (hattempt : call.attempt = a.number) (last : Nat) :
    Journals inf (payloads.foldl (Store.appendEvent call.id) (inf, last)).1 := by
  induction payloads generalizing inf last with
  | nil => exact refl inf
  | cons payload rest ih =>
    have happend := @append _ _ _
        ⟨call.id, last + 1, some (inf.eventSequence + 1), payload⟩ ha hopen hcall hattempt rfl rfl
    exact happend.trans (@ih {inf with eventSequence := inf.eventSequence + 1,
                                       events := inf.events ++
                                         [⟨call.id, last + 1, some (inf.eventSequence + 1),
                                         payload⟩]} ha hcall (last + 1))

end Journals

namespace Store

variable {s s' : Store} {key : Id} {inf inf' : Inference} {a : Attempt}

theorem initial_inv {status : Status} (hstatus : status = .prepared ∨ status = .queued) {key : Id}
    {request : Request} {replayOf : Option Id}
    {authority : Option Authority} {deadlineAt : Option Nat} :
    Initial key ⟨key, request, replayOf, authority, status, 1, 1, deadlineAt, 0, [newAttempt 1 status], [], []⟩ := by
  have hopen : status.terminal = false := by obtain rfl | rfl := hstatus <;> rfl
  have hall : ∀ {P : Attempt → Prop}, P (newAttempt 1 status) → ∀ a ∈ [newAttempt 1 status], P a :=
    fun hP a ha => List.mem_singleton.mp ha ▸ hP
  refine ⟨rfl, ⟨rfl, Nat.one_pos, hall fun hne => absurd rfl hne, hall fun _ => ?_,
    hall fun h => absurd (hopen.symm.trans h) Bool.false_ne_true,
    hall fun _ => rfl, ?_, List.Pairwise.nil, ?_, ?_, List.nodup_nil, ?_⟩, rfl⟩
  · obtain rfl | rfl := hstatus <;> rfl
  · exact fun _ h => absurd h List.not_mem_nil
  · exact fun _ h => absurd h List.not_mem_nil
  · exact fun _ h => absurd h List.not_mem_nil
  · exact fun _ h => absurd h List.not_mem_nil

theorem create_advances {request : Request} {replayOf : Option Id} {authority : Option Authority}
    {prepared : Bool} {now : Nat}
    (h : s.create key request replayOf authority prepared now = .ok s') : Advances s s' := by
  unfold create at h
  split at h
  case h_1 hnone =>
    obtain rfl := Except.ok.inj h
    refine ⟨fun other => ?_, rfl⟩
    by_cases hother : other = key
    · rw [hother, hnone, put_self s ⟨key, _, _, _, _, _, _, _, _, _, _, _⟩]
      exact .created (initial_inv (by cases prepared <;> simp)) .refl
    · rw [put_of_ne s hother]
      exact .refl _
  case h_2 =>
    split at h
    case isTrue => cases h
    case isFalse =>
      obtain rfl := Except.ok.inj h
      exact .refl s

theorem claim_advances {token now : Nat} (hinv : StoreInv s) (h : s.claim key token now = .ok s') : Advances s s' := by
  unfold claim at h
  obtain ⟨⟨inf, a⟩, hlocked, h⟩ := bind_eq_ok.mp h
  obtain ⟨hkey, ha⟩ := locked_spec hlocked
  dsimp only at h
  split at h
  case isTrue =>
    obtain rfl := Except.ok.inj h
    exact .refl s
  case isFalse hqueued =>
    simp only [Bool.or_eq_true, not_or, decide_eq_true_eq, ne_eq, Decidable.not_not] at hqueued
    split at h
    case isTrue =>
      refine finishAttempt_advances hinv hkey .refl ha rfl (fun goal hgoal => ?_) h
      rw [hqueued.1] at hgoal
      cases hgoal
    case isFalse =>
      obtain rfl := Except.ok.inj h
      exact put_advances hinv hkey (.single (.claim ha hqueued.2))

theorem heartbeat_advances {owner : Owner} {checked now : Nat} (hinv : StoreInv s)
    (h : s.heartbeat owner checked now = .ok s') :
    Advances s s' := by
  obtain ⟨⟨inf, a⟩, howned, h⟩ := bind_eq_ok.mp h
  obtain ⟨hkey, ha, -, hrunning, -⟩ := owned_spec howned
  obtain rfl := Except.ok.inj h
  exact put_advances hinv hkey (.single (.beat ha hrunning))

theorem running_open (h : a.status = .running) : a.status.terminal = false := by rw [h]; rfl

theorem requested_terminal {status goal : Status} (h : requested status = some goal) : goal.terminal = true := by
  cases status <;> cases h <;> rfl

theorem finish_advances {owner : Owner} {result : AIResult} {interrupted : Bool}
    {checked expiry now : Nat} (hinv : StoreInv s)
    (h : s.finish owner result interrupted checked expiry now = .ok s') : Advances s s' := by
  unfold finish at h
  obtain ⟨⟨inf, a⟩, howned, h⟩ := bind_eq_ok.mp h
  obtain ⟨hkey, ha, -, hrunning, -⟩ := owned_spec howned
  dsimp only at h
  generalize hresult : (if ((requested inf.status).isNone && inf.expired expiry) = true then _
    else result : AIResult) = result' at h
  generalize hchosen : (if ((requested inf.status).isNone && inf.expired expiry) = true then Status.failed
    else if interrupted = true then .interrupted else if result'.success = true then .completed
      else .failed) = chosen at h
  have hterminal : ((requested inf.status).getD chosen).terminal = true := by
    cases hgoal : requested inf.status with
    | none =>
      rw [← hchosen]
      show Status.terminal (if _ then _ else _) = true
      repeat' split
      all_goals rfl
    | some goal => exact requested_terminal hgoal
  have hobeys : ∀ goal, requested inf.status = some goal → (requested inf.status).getD chosen = goal := by
    intro goal hgoal
    rw [hgoal]
    rfl
  split at h
  case isTrue => exact finishAttempt_advances hinv hkey .refl ha hterminal hobeys h
  case isFalse =>
    obtain ⟨closed, hclosed, h⟩ := bind_eq_ok.mp h
    obtain ⟨persisted, -, h⟩ := bind_eq_ok.mp h
    have hjournals := Journals.closeAbandonedCalls ha (running_open hrunning) rfl hclosed
    exact finishAttempt_advances hinv hkey hjournals.moves (hjournals.current.trans ha) hterminal
      (hjournals.status ▸ hobeys) h

theorem recoverOne_advances {now : Nat} (hinv : StoreInv s) (h : s.recoverOne key now = .ok s') : Advances s s' := by
  unfold recoverOne at h
  obtain ⟨⟨inf, a⟩, hlocked, h⟩ := bind_eq_ok.mp h
  obtain ⟨hkey, ha⟩ := locked_spec hlocked
  dsimp only at h
  split at h
  case isTrue =>
    obtain rfl := Except.ok.inj h
    exact .refl s
  case isFalse hrunning =>
    simp only [Bool.or_eq_true, not_or, decide_eq_true_eq, ne_eq, Decidable.not_not] at hrunning
    obtain ⟨interim, -, h⟩ := bind_eq_ok.mp h
    obtain ⟨closed, hclosed, h⟩ := bind_eq_ok.mp h
    have hjournals := Journals.closeAbandonedCalls ha (running_open hrunning.1) rfl hclosed
    refine finishAttempt_advances hinv hkey hjournals.moves (hjournals.current.trans ha) ?_ (fun goal hgoal => ?_) h
    · cases hgoal : requested closed.status with
      | none => rfl
      | some goal => exact requested_terminal hgoal
    · rw [hgoal]
      rfl

theorem recoverExpired_advances {keys : List Id} {now : Nat} (hinv : StoreInv s)
    (h : s.recoverExpired keys now = .ok s') : Advances s s' := by
  unfold recoverExpired at h
  induction keys generalizing s with
  | nil =>
    obtain rfl := Except.ok.inj h
    exact .refl s
  | cons key rest ih =>
    rw [List.foldlM_cons] at h
    obtain ⟨next, hnext, hrest⟩ := bind_eq_ok.mp h
    have hone := recoverOne_advances hinv hnext
    exact hone.trans (ih (hone.storeInv hinv) hrest)

theorem persistRunningCall_advances {owner : Owner} {call : Id} {prompt systemPrompt : String}
    {captured : Bool} {now : Nat} (hinv : StoreInv s)
    (h : s.persistRunningCall owner call prompt systemPrompt captured now = .ok s') : Advances s s' := by
  unfold persistRunningCall at h
  obtain ⟨⟨inf, a⟩, howned, h⟩ := bind_eq_ok.mp h
  obtain ⟨hkey, ha, -⟩ := owned_spec howned
  dsimp only at h
  split at h
  case isTrue => cases h
  case isFalse hfresh =>
    obtain rfl := Except.ok.inj h
    have hother : ∀ other ∈ inf.calls, other.id ≠ call := fun other hother heq =>
      hfresh (List.any_eq_true.mpr ⟨other, hother, decide_eq_true heq⟩)
    refine put_advances hinv hkey (.single ?_)
    cases captured with
    | true =>
      exact @Move.persist _ _ ⟨call, a.number, true, prompt, systemPrompt, none⟩
        [⟨call, 0, none, .request⟩] ha rfl hother
        fun event hevent => List.mem_singleton.mp hevent
    | false =>
      have hmove := @Move.persist _ _ ⟨call, a.number, true, prompt, systemPrompt, none⟩ [] ha rfl hother
        fun event hevent => absurd hevent List.not_mem_nil
      rw [List.append_nil] at hmove
      exact hmove

theorem finalizeCall_advances {call : Id} {error : Option String} (hinv : StoreInv s) :
    Advances s (s.finalizeCall key call error) := by
  unfold finalizeCall
  split
  case h_1 => exact .refl s
  case h_2 inf hkey =>
    refine put_advances hinv hkey (.single (.calls fun other => ?_))
    split <;> exact ⟨rfl, rfl⟩

theorem appendEvents_advances {owner : Owner} {call : Id} {payloads : List Payload} {now : Nat} (hinv : StoreInv s)
    (h : s.appendEvents owner call payloads now = .ok s') : Advances s s' := by
  unfold appendEvents at h
  split at h
  case isTrue =>
    obtain rfl := Except.ok.inj h
    exact .refl s
  case isFalse =>
    split at h
    case isTrue => cases h
    case isFalse =>
      split at h
      case isTrue => cases h
      case isFalse =>
        obtain ⟨⟨inf, a⟩, howned, h⟩ := bind_eq_ok.mp h
        obtain ⟨hkey, ha, hnumber, hrunning, -⟩ := owned_spec howned
        dsimp only at h
        split at h
        case h_1 => cases h
        case h_2 row hrow =>
          have hid : row.id = call := by simpa using List.find?_some hrow
          split at h
          case isTrue => cases h
          case isFalse hattempt =>
            split at h
            case h_1 => cases h
            case h_2 last _ =>
              split at h
              case isTrue => cases h
              case isFalse =>
                obtain rfl := Except.ok.inj h
                rw [← hid]
                exact put_advances hinv hkey
                  (Journals.foldl_append ha (running_open hrunning) (List.mem_of_find?_eq_some hrow)
                  ((Decidable.not_not.mp hattempt).trans hnumber.symm) last.sequence).moves

theorem finishAttempt_status {result : AIResult} {status : Status} {now : Nat} (hid : inf.id = key)
    (h : s.finishAttempt inf a result status now = .ok s') :
    ∃ inf', s'.inferences key = some inf' ∧ inf'.status = status := by
  unfold finishAttempt at h
  split at h
  case isTrue => cases h
  case isFalse =>
    obtain rfl := Except.ok.inj h
    exact ⟨_, put_key s hid, rfl⟩

/-- An action advances the inference; after a stop, it is halted. -/
theorem control_advances {action : Action} {now : Nat} (hinv : StoreInv s)
    (hkey : s.inferences key = some inf) (ha : inf.current = some a)
    (h : s.control inf a action now = .ok s') :
    Advances s s' ∧ (action = .stop → ∃ inf', s'.inferences key = some inf' ∧ inf'.status.halted = true) := by
  have hid : inf.id = key := hinv.ids key inf hkey
  have hcoupled := (hinv.inferences key inf hkey).current_coupled ha
  have hasked : action = .pause ∨ action = .stop → s.control inf a action now =
      if inf.status = .completed ∨ inf.status = .failed ∨ inf.status = .stopped then
        .error (.value "A completed inference is immutable; use replay.")
      else if a.status = .running then
        if action = .pause && inf.status = .stopping
          then .error (.value "A stop already requested cannot become a pause.")
        else .ok (s.put {inf with status := if action = .pause then .pausing else .stopping})
      else if a.status = .prepared ∨ a.status = .queued then
        s.finishAttempt inf a (.empty inf.request.prompt inf.request.systemPrompt false)
          (if action = .pause then .paused else .stopped) now
      else if action = .stop then .ok (s.put {inf with status := .stopped})
      else .ok s := by
    rintro (rfl | rfl) <;> simp [control, or_assoc]
  have hhandled : action = .pause ∨ action = .stop →
      Advances s s' ∧ (action = .stop → ∃ inf', s'.inferences key = some inf' ∧ inf'.status.halted = true) := by
    intro haction
    rw [hasked haction] at h
    split at h
    case isTrue => cases h
    case isFalse hmutable =>
      split at h
      case isTrue hrunning =>
        split at h
        case isTrue => cases h
        case isFalse hpermitted =>
          obtain rfl := Except.ok.inj h
          refine ⟨put_advances hinv hkey (.single (.request ha hrunning ?_)), fun hstop => ⟨_, put_key s hid, ?_⟩⟩
          · obtain rfl | rfl := haction
            · exact .inr ⟨rfl, fun hstopping => hpermitted (by simp [hstopping])⟩
            · exact .inl rfl
          · rw [hstop]
            rfl
      case isFalse hrunning =>
        split at h
        case isTrue hwaiting =>
          refine ⟨finishAttempt_advances hinv hkey .refl ha ?_ (fun goal hgoal => ?_) h, fun hstop => ?_⟩
          · split <;> rfl
          · have hopen : a.status.terminal = false := by obtain hstatus | hstatus := hwaiting <;> rw [hstatus] <;> rfl
            obtain hstatus | ⟨hstatus, -⟩ := coupled_open hcoupled hopen
            · rw [hstatus] at hgoal
              obtain hstatus | hstatus := hwaiting <;> rw [hstatus] at hgoal <;> cases hgoal
            · exact absurd hstatus hrunning
          · obtain ⟨inf', hkey', hstatus⟩ := finishAttempt_status hid h
            refine ⟨inf', hkey', ?_⟩
            rw [hstatus, hstop]
            rfl
        case isFalse hwaiting =>
          split at h
          case isTrue =>
            obtain rfl := Except.ok.inj h
            refine ⟨put_advances hinv hkey (.single (.stop ?_)), fun _ => ⟨_, put_key s hid, rfl⟩⟩
            cases hstatus : inf.status <;> cases hattempt : a.status <;> rw [hstatus, hattempt] at hcoupled <;>
              rw [hstatus] at hmutable <;> rw [hattempt] at hrunning hwaiting <;>
              first | exact .inl rfl | exact .inr rfl | exact absurd hcoupled (by decide) | exact absurd hmutable (by decide) |
                exact absurd rfl hrunning | exact absurd hwaiting (by decide)
          case isFalse hstop =>
            obtain rfl := Except.ok.inj h
            exact ⟨.refl s, fun hstop' => absurd hstop' hstop⟩
  cases action with
  | replay =>
    obtain rfl := Except.ok.inj h
    exact ⟨.refl s, nofun⟩
  | start =>
    unfold control at h
    dsimp only at h
    split at h
    case isTrue => cases h
    case isFalse hprepared =>
      obtain rfl := Except.ok.inj h
      exact ⟨put_advances hinv hkey (.single (.start ha (Decidable.not_not.mp hprepared))), nofun⟩
  | resume =>
    unfold control at h
    dsimp only at h
    split at h
    case isTrue => cases h
    case isFalse hended =>
      split at h
      case isTrue => cases h
      case isFalse =>
        obtain rfl := Except.ok.inj h
        refine ⟨put_advances hinv hkey (.single (.resume ?_)), nofun⟩
        simp only [Bool.and_eq_true, not_and, decide_eq_true_eq, ne_eq, Decidable.not_not] at hended
        by_cases hpaused : inf.status = .paused
        · exact .inl hpaused
        · exact .inr (hended hpaused)
  | pause => exact hhandled (.inl rfl)
  | stop => exact hhandled (.inr rfl)

theorem revised_advances (hinv : StoreInv s) : Advances s (s.revised key) := by
  unfold revised
  split
  case h_1 => exact .refl s
  case h_2 inf hkey => exact put_advances hinv hkey (.single .revise)

/-- A command has been accepted: before, with its receipt, or now, and its receipt is the last. -/
theorem command_spec {action : Action} {id : Id} {expectedRevision : Option Nat} {fresh now : Nat}
    {receipt : Command} (hinv : StoreInv s)
    (h : s.command key action id expectedRevision fresh now = .ok (s', receipt)) :
    receipt.identity = (id, key, action, expectedRevision) ∧
      (s' = s ∧ receipt ∈ s.commands ∨
        s.command? id = none ∧ ∃ next, Advances s next ∧ s' = {next with commands := next.commands ++ [receipt]} ∧
          (action = .stop → ∃ inf, next.inferences key = some inf ∧ inf.status.halted = true)) := by
  unfold command at h
  obtain ⟨⟨inf, a⟩, hlocked, h⟩ := bind_eq_ok.mp h
  obtain ⟨hkey, ha⟩ := locked_spec hlocked
  dsimp only at h
  split at h
  case h_1 previous hprevious =>
    split at h
    case isTrue => cases h
    case isFalse hsame =>
      obtain ⟨rfl, rfl⟩ := Prod.mk.inj (Except.ok.inj h)
      simp only [Bool.or_eq_true, not_or, decide_eq_true_eq, ne_eq, Decidable.not_not] at hsame
      have hid : previous.id = id := by simpa using List.find?_some hprevious
      exact ⟨by rw [Command.identity, hid, hsame.1.1, hsame.1.2, hsame.2],
        .inl ⟨rfl, List.mem_of_find?_eq_some hprevious⟩⟩
  case h_2 hnone =>
    split at h
    case isTrue => cases h
    case isFalse =>
      obtain ⟨next, hnext, h⟩ := bind_eq_ok.mp h
      obtain ⟨rfl, rfl⟩ := Prod.mk.inj (Except.ok.inj h)
      refine ⟨rfl, .inr ⟨hnone, _, ?_, rfl, fun hstop => ?_⟩⟩
      · unfold performed at hnext
        split at hnext
        case isTrue hreplay =>
          rw [if_pos hreplay]
          exact create_advances hnext
        case isFalse hreplay =>
          rw [if_neg hreplay]
          have hcontrol := (control_advances hinv hkey ha hnext).1
          exact hcontrol.trans (revised_advances (hcontrol.storeInv hinv))
      · have hreplay : action ≠ .replay := fun hreplay => nomatch hstop.symm.trans hreplay
        rw [if_neg hreplay]
        unfold performed at hnext
        rw [if_neg hreplay] at hnext
        obtain ⟨hcontrol, hhalted⟩ := control_advances hinv hkey ha hnext
        obtain ⟨inf', hkey', hhalted⟩ := hhalted hstop
        obtain ⟨inf'', hkey'', hlater⟩ :=
          (revised_advances (hcontrol.storeInv hinv)).later (hcontrol.storeInv hinv) hkey'
        exact ⟨inf'', hkey'', hlater.halted hhalted⟩

end Store

end Galaris.Llm.InferenceStore
