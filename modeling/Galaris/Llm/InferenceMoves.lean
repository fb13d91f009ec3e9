import Galaris.Llm.InferenceStore
import Mathlib.Logic.Relation
import Mathlib.Data.List.Nodup

/-! What a transaction can do to an inference.

Whatever a transaction does to an inference is a sequence of moves (`Move`). A move keeps the invariant
of an inference (`Inv`): its attempts are numbered up to its generation, only the last may be open, and
the sequences of its journal grow. And what a move changes, it changes forwards (`Later`): attempts that
are over stay as they are, and messages are only appended. -/
namespace Galaris.Llm.InferenceStore

/-- The statuses of an inference and of its current attempt. -/
def coupled : Status → Status → Bool
  | .pausing, .running | .stopping, .running => true
  | .stopped, .paused | .stopped, .interrupted => true
  | .pausing, _ | .stopping, _ => false
  | status, attempt => status == attempt

/-- An attempt that is open has the status of its inference, or a request waits for it. -/
theorem coupled_open {status attempt : Status} (h : coupled status attempt = true) (hopen : attempt.terminal = false) :
    status = attempt ∨ attempt = .running ∧ (status = .pausing ∨ status = .stopping) := by
  cases status <;> cases attempt <;>
    first | exact .inl rfl | exact .inr ⟨rfl, .inl rfl⟩ | exact .inr ⟨rfl,
      .inr rfl⟩ | exact absurd h (by decide) | exact absurd hopen (by decide)

/-- A stop has been accepted. -/
def Status.halted : Status → Bool
  | .stopping | .stopped => true
  | _ => false

/-- `completed`, `failed` and `stopped`. -/
def Status.immutable : Status → Bool
  | .completed | .failed | .stopped => true
  | _ => false

namespace Inference

def belongs (inf : Inference) (attempt : Nat) (event : CallEvent) : Bool :=
  event.message?.isSome && inf.calls.any fun call => call.id = event.call && call.attempt = attempt

/-- The message events of an attempt, as they were committed. -/
def messages (inf : Inference) (attempt : Nat) : List CallEvent := inf.events.filter (inf.belongs attempt)

end Inference

def CallEvent.order (event : CallEvent) : Nat := event.inferenceSequence.getD 0

structure Inv (inf : Inference) : Prop where
  numbers : inf.attempts.map Attempt.number = List.range' 1 inf.generation
  generation : 0 < inf.generation
  closed : ∀ a ∈ inf.attempts, a.number ≠ inf.generation → a.status.terminal = true
  coupled : ∀ a ∈ inf.attempts, a.number = inf.generation → coupled inf.status a.status = true
  final : ∀ a ∈ inf.attempts, a.status.terminal = true → a.result.isSome = true ∧ ∃ final,
    a.finalSequence = some final ∧
    0 < final ∧ final ≤ inf.eventSequence ∧ ∀ event ∈ inf.messages a.number, event.order < final
  unfinished : ∀ a ∈ inf.attempts, a.status.terminal = false → a.finalSequence = none
  sequenced : ∀ event ∈ inf.events, event.message?.isSome = true → event.inferenceSequence.isSome = true
  sorted : (inf.events.filterMap CallEvent.inferenceSequence).Pairwise (· < ·)
  bounded : ∀ event ∈ inf.events, ∀ sequence, event.inferenceSequence = some sequence →
    0 < sequence ∧ sequence ≤ inf.eventSequence
  journaled : ∀ event ∈ inf.events, ∃ call ∈ inf.calls, call.id = event.call
  calls : (inf.calls.map Call.id).Nodup
  called : ∀ call ∈ inf.calls, call.attempt ≤ inf.generation

/-- A move of an inference, whose current attempt is `a`. -/
inductive Move : Inference → Inference → Prop
  | start {inf : Inference} {a : Attempt} (current : inf.current = some a) (prepared : inf.status = .prepared) :
    Move inf ({inf with status := .queued}.put {a with status := .queued})
  | claim {inf : Inference} {a : Attempt} {token now : Nat} (current : inf.current = some a)
    (queued : a.status = .queued) :
    Move inf ({inf with status := .running, revision := inf.revision + 1}.put
      {a with status := .running, leaseToken := some token, startedAt := some now, leaseExpiresAt := some (now + leaseSeconds)})
  | beat {inf : Inference} {a : Attempt} {expiry : Nat} (current : inf.current = some a)
    (running : a.status = .running) :
    Move inf (inf.put {a with leaseExpiresAt := some expiry})
  | finish {inf : Inference} {a : Attempt} {status : Status} {result : AIResult} {now : Nat}
    (current : inf.current = some a)
      (unfinished : a.status.terminal = false) (terminal : status.terminal = true)
      (obeys : ∀ goal, Store.requested inf.status = some goal → status = goal) :
    Move inf ({inf with eventSequence := inf.eventSequence + 1, status, revision := inf.revision + 1}.put
      {a with
        status, completedAt := some now, leaseExpiresAt := none, finalSequence := some (inf.eventSequence + 1)
        result := some result})
  | request {inf : Inference} {a : Attempt} {status : Status} (current : inf.current = some a)
    (running : a.status = .running)
      (asked : status = .stopping ∨ status = .pausing ∧ inf.status ≠ .stopping) : Move inf {inf with status}
  | resume {inf : Inference} (ended : inf.status = .paused ∨ inf.status = .interrupted) :
    Move inf {inf with generation := inf.generation + 1, status := .queued,
                       attempts := inf.attempts ++ [newAttempt (inf.generation + 1) .queued]}
  | stop {inf : Inference} (ended : inf.status = .paused ∨ inf.status = .interrupted) :
    Move inf {inf with status := .stopped}
  | revise {inf : Inference} : Move inf {inf with revision := inf.revision + 1}
  | persist {inf : Inference} {a : Attempt} {call : Call} {events : List CallEvent} (current : inf.current = some a)
      (own : call.attempt = a.number) (fresh : ∀ other ∈ inf.calls, other.id ≠ call.id)
      (captured : ∀ event ∈ events, event = ⟨call.id, 0, none, .request⟩) :
    Move inf {inf with calls := inf.calls ++ [call], events := inf.events ++ events}
  | append {inf : Inference} {a : Attempt} {call : Call} {event : CallEvent} (current : inf.current = some a)
      (unfinished : a.status.terminal = false) (own : call ∈ inf.calls)
      (attempt : call.attempt = a.number) (journal : event.call = call.id)
      (next : event.inferenceSequence = some (inf.eventSequence + 1)) :
    Move inf {inf with eventSequence := inf.eventSequence + 1, events := inf.events ++ [event]}
  | calls {inf : Inference} {f : Call → Call} (same : ∀ call, (f call).id = call.id ∧ (f call).attempt = call.attempt) :
    Move inf {inf with calls := inf.calls.map f}

theorem current_spec {inf : Inference} {a : Attempt} (h : inf.current = some a) :
    a ∈ inf.attempts ∧ a.number = inf.generation := by
  have hfound : inf.attempts.find? (fun a => decide (a.number = inf.generation)) = some a := h
  exact ⟨List.mem_of_find?_eq_some hfound, by simpa using List.find?_some hfound⟩

theorem mem_put {inf : Inference} {a b : Attempt} (h : b ∈ (inf.put a).attempts) :
    b = a ∨ b ∈ inf.attempts ∧ b.number ≠ a.number := by
  obtain ⟨other, hother, rfl⟩ := List.mem_map.mp h
  split
  case isTrue => exact .inl rfl
  case isFalse hne => exact .inr ⟨hother, hne⟩

theorem put_numbers (inf : Inference) (a : Attempt) :
    (inf.put a).attempts.map Attempt.number = inf.attempts.map Attempt.number := by
  unfold Inference.put
  rw [List.map_map]
  refine List.map_congr_left fun other _ => ?_
  show (if other.number = a.number then a else other).number = other.number
  split
  case isTrue heq => exact heq.symm
  case isFalse => rfl

theorem mem_put_of_ne {inf : Inference} {a b : Attempt} (h : b ∈ inf.attempts)
    (hne : b.number ≠ a.number) : b ∈ (inf.put a).attempts :=
  List.mem_map.mpr ⟨b, h, if_neg hne⟩

namespace Inv

variable {inf : Inference}

theorem unique (h : Inv inf) {a b : Attempt} (ha : a ∈ inf.attempts) (hb : b ∈ inf.attempts)
    (heq : a.number = b.number) : a = b :=
  List.inj_on_of_nodup_map (h.numbers ▸ List.nodup_range') ha hb heq

theorem number_le (h : Inv inf) {a : Attempt} (ha : a ∈ inf.attempts) : 0 < a.number ∧ a.number ≤ inf.generation := by
  have hmem : a.number ∈ List.range' 1 inf.generation := h.numbers ▸ List.mem_map_of_mem ha
  obtain ⟨hle, hlt⟩ := List.mem_range'_1.mp hmem
  exact ⟨hle, by omega⟩

theorem current_coupled (h : Inv inf) {a : Attempt} (ha : inf.current = some a) :
    InferenceStore.coupled inf.status a.status = true :=
  h.coupled a (current_spec ha).1 (current_spec ha).2

/-- The current attempt is written back, with the status of the inference. -/
theorem put (h : Inv inf) {a a' : Attempt} (ha : inf.current = some a)
    (hnumber : a'.number = a.number) {status : Status}
    {revision eventSequence : Nat} (hcoupled : InferenceStore.coupled status a'.status = true)
    (hgrows : inf.eventSequence ≤ eventSequence)
    (hfinal : a'.status.terminal = true → a'.result.isSome = true ∧ a'.finalSequence = some (inf.eventSequence + 1) ∧
      inf.eventSequence < eventSequence)
    (hopen : a'.status.terminal = false → a'.finalSequence = none) :
    Inv ({inf with status, revision, eventSequence}.put a') := by
  obtain ⟨hmem, hcurrent⟩ := current_spec ha
  have hmessages : ∀ n, (Inference.put {inf with status, revision, eventSequence} a').messages n =
      inf.messages n := fun _ => rfl
  refine ⟨?_, h.generation, fun b hb hne => ?_, fun b hb heq => ?_, fun b hb hterminal => ?_,
    fun b hb hrunning => ?_, h.sequenced, h.sorted,
    fun event hevent sequence hsequence => (h.bounded event hevent sequence hsequence).imp_right
      (Nat.le_trans · hgrows), h.journaled, h.calls, h.called⟩
  · rw [put_numbers]
    exact h.numbers
  · obtain rfl | ⟨hb, -⟩ := mem_put hb
    · exact absurd (hnumber.trans hcurrent) hne
    · exact h.closed b hb hne
  · obtain rfl | ⟨hb, hne⟩ := mem_put hb
    · exact hcoupled
    · exact absurd (heq.trans (hnumber.trans hcurrent).symm) hne
  · rw [hmessages]
    obtain rfl | ⟨hb, -⟩ := mem_put hb
    · obtain ⟨hresult, hsequence, hlt⟩ := hfinal hterminal
      refine ⟨hresult, _, hsequence, Nat.succ_pos _, hlt, fun event hevent => ?_⟩
      obtain ⟨hevent, hbelongs⟩ := List.mem_filter.mp hevent
      obtain ⟨sequence, hsequence⟩ :=
        Option.isSome_iff_exists.mp (h.sequenced event hevent (Bool.and_eq_true_iff.mp hbelongs).1)
      unfold CallEvent.order
      rw [hsequence]
      exact Nat.lt_succ_of_le (h.bounded event hevent sequence hsequence).2
    · obtain ⟨hresult, final, hsequence, hpositive, hle, hbefore⟩ := h.final b hb hterminal
      exact ⟨hresult, final, hsequence, hpositive, Nat.le_trans hle hgrows, hbefore⟩
  · obtain rfl | ⟨hb, -⟩ := mem_put hb
    · exact hopen hrunning
    · exact h.unfinished b hb hrunning

/-- Only the status and the revision change. -/
theorem status (h : Inv inf) {status : Status} {revision : Nat}
    (hcoupled : ∀ a ∈ inf.attempts, a.number = inf.generation → InferenceStore.coupled status a.status = true) :
    Inv {inf with status, revision} :=
  ⟨h.numbers, h.generation, h.closed, hcoupled, h.final, h.unfinished, h.sequenced, h.sorted,
    h.bounded, h.journaled, h.calls, h.called⟩

/-- A call that has a journal is the only one with its identity. -/
theorem call_unique (h : Inv inf) {a b : Call} (ha : a ∈ inf.calls) (hb : b ∈ inf.calls) (heq : a.id = b.id) : a = b :=
  List.inj_on_of_nodup_map h.calls ha hb heq

/-- The journal grows by events of running calls. -/
theorem append (h : Inv inf) {a : Attempt} {call : Call} {event : CallEvent} (ha : inf.current = some a)
    (hopen : a.status.terminal = false) (hcall : call ∈ inf.calls)
    (hattempt : call.attempt = a.number) (hjournal : event.call = call.id)
    (hnext : event.inferenceSequence = some (inf.eventSequence + 1)) :
    Inv {inf with eventSequence := inf.eventSequence + 1, events := inf.events ++ [event]} := by
  have hmem : ∀ {P : CallEvent → Prop}, (∀ other ∈ inf.events, P other) → P event →
      ∀ other ∈ inf.events ++ [event], P other := by
    intro P hall hnew other hother
    obtain hother | hother := List.mem_append.mp hother
    · exact hall other hother
    · exact List.mem_singleton.mp hother ▸ hnew
  refine ⟨h.numbers, h.generation, h.closed, h.coupled, fun b hb hterminal => ?_, h.unfinished,
    hmem h.sequenced fun _ => ?_, ?_,
    hmem (fun other hother sequence hsequence =>
      (h.bounded other hother sequence hsequence).imp_right Nat.le_succ_of_le)
      fun sequence hsequence => ?_,
    hmem h.journaled ⟨call, hcall, hjournal.symm⟩, h.calls, h.called⟩
  · obtain ⟨hresult, final, hsequence, hpositive, hle, hbefore⟩ := h.final b hb hterminal
    refine ⟨hresult, final, hsequence, hpositive, Nat.le_succ_of_le hle, fun other hother => ?_⟩
    obtain ⟨hother, hbelongs⟩ := List.mem_filter.mp hother
    obtain hother | hother := List.mem_append.mp hother
    · exact hbefore other (List.mem_filter.mpr ⟨hother, hbelongs⟩)
    · -- The event belongs to the current attempt, which is not over.
      obtain rfl := List.mem_singleton.mp hother
      obtain ⟨owner, howner, hsame⟩ := List.any_eq_true.mp (Bool.and_eq_true_iff.mp hbelongs).2
      obtain ⟨hid, hnumber⟩ := Bool.and_eq_true_iff.mp hsame
      have hsame : owner = call := h.call_unique howner hcall ((of_decide_eq_true hid).trans hjournal)
      have heq : b = a := h.unique hb (current_spec ha).1 ((of_decide_eq_true hnumber).symm.trans (hsame ▸ hattempt))
      rw [heq, hopen] at hterminal
      exact absurd hterminal Bool.false_ne_true
  · rw [hnext]
    rfl
  · rw [List.filterMap_append, List.filterMap_cons_some hnext, List.filterMap_nil, List.pairwise_append]
    refine ⟨h.sorted, List.pairwise_singleton _ _, fun sequence hsequence other hother => ?_⟩
    obtain ⟨event, hevent, hsequence⟩ := List.mem_filterMap.mp hsequence
    rw [List.mem_singleton.mp hother]
    exact Nat.lt_succ_of_le (h.bounded event hevent sequence hsequence).2
  · obtain rfl := Option.some.inj (hnext.symm.trans hsequence)
    exact ⟨Nat.succ_pos _, Nat.le_refl _⟩

theorem belongs_append {calls : List Call} {call : Call} {event : CallEvent} (h : event.call ≠ call.id) (n : Nat) :
    (calls ++ [call]).any (fun other => other.id = event.call && other.attempt = n) =
      calls.any fun other => other.id = event.call && other.attempt = n := by
  rw [List.any_append, List.any_cons, List.any_nil, Bool.or_false,
    decide_eq_false fun heq => h heq.symm, Bool.false_and, Bool.or_false]

/-- A call begins; it has no events but its request. -/
theorem persist_messages (h : Inv inf) {call : Call} {events : List CallEvent}
    (hfresh : ∀ other ∈ inf.calls, other.id ≠ call.id)
    (hcaptured : ∀ event ∈ events, event = ⟨call.id, 0, none, .request⟩) (n : Nat) :
    Inference.messages {inf with calls := inf.calls ++ [call], events := inf.events ++ events} n = inf.messages n := by
  unfold Inference.messages
  have hnone : events.filter (Inference.belongs
      {inf with calls := inf.calls ++ [call], events := inf.events ++ events} n) = [] := by
    refine List.filter_eq_nil_iff.mpr fun event hevent hbelongs => ?_
    rw [hcaptured event hevent] at hbelongs
    exact Bool.false_ne_true (Bool.and_eq_true_iff.mp hbelongs).1
  rw [List.filter_append, hnone, List.append_nil]
  refine List.filter_congr fun event hevent => ?_
  obtain ⟨other, hother, hid⟩ := h.journaled event hevent
  show (event.message?.isSome && (inf.calls ++ [call]).any _) = _
  rw [belongs_append (fun heq => hfresh other hother (hid.trans heq)) n]
  rfl

theorem persist (h : Inv inf) {a : Attempt} {call : Call} {events : List CallEvent} (ha : inf.current = some a)
    (hown : call.attempt = a.number) (hfresh : ∀ other ∈ inf.calls, other.id ≠ call.id)
    (hcaptured : ∀ event ∈ events, event = ⟨call.id, 0, none, .request⟩) :
    Inv {inf with calls := inf.calls ++ [call], events := inf.events ++ events} := by
  have hmem : ∀ {P : CallEvent → Prop}, (∀ other ∈ inf.events, P other) → P ⟨call.id, 0, none, .request⟩ →
      ∀ other ∈ inf.events ++ events, P other := by
    intro P hall hnew other hother
    obtain hother | hother := List.mem_append.mp hother
    · exact hall other hother
    · exact hcaptured other hother ▸ hnew
  refine ⟨h.numbers, h.generation, h.closed, h.coupled, fun b hb hterminal => ?_, h.unfinished,
    hmem h.sequenced fun hmessage => ?_, ?_,
    hmem h.bounded fun _ hsequence =>
      ?_, hmem ?_ ⟨call, List.mem_append_right _ (List.mem_singleton.mpr rfl), rfl⟩, ?_, ?_⟩
  · rw [h.persist_messages hfresh hcaptured]
    exact h.final b hb hterminal
  · cases hmessage
  · have hnone : events.filterMap CallEvent.inferenceSequence = [] :=
      List.filterMap_eq_nil_iff.mpr fun event hevent => by rw [hcaptured event hevent]
    rw [List.filterMap_append, hnone, List.append_nil]
    exact h.sorted
  · cases hsequence
  · intro event hevent
    obtain ⟨other, hother, hid⟩ := h.journaled event hevent
    exact ⟨other, List.mem_append_left _ hother, hid⟩
  · show ((inf.calls ++ [call]).map Call.id).Nodup
    rw [List.map_append, List.nodup_append]
    refine ⟨h.calls, List.nodup_singleton _, fun id hid other hother => ?_⟩
    obtain ⟨row, hrow, rfl⟩ := List.mem_map.mp hid
    rw [List.mem_singleton.mp hother]
    exact hfresh row hrow
  · intro other hother
    obtain hother | hother := List.mem_append.mp hother
    · exact h.called other hother
    · rw [List.mem_singleton.mp hother, hown]
      exact (h.number_le (current_spec ha).1).2

variable {f : Call → Call}

theorem calls_belongs (hsame : ∀ call, (f call).id = call.id ∧ (f call).attempt = call.attempt)
    (n : Nat) (event : CallEvent) :
    Inference.belongs {inf with calls := inf.calls.map f} n event = inf.belongs n event := by
  unfold Inference.belongs
  rw [List.any_map]
  refine congrArg (event.message?.isSome && inf.calls.any ·) (funext fun call => ?_)
  show ((f call).id = event.call && (f call).attempt = n : Bool) = _
  rw [(hsame call).1, (hsame call).2]

theorem calls_messages (hsame : ∀ call, (f call).id = call.id ∧ (f call).attempt = call.attempt) (n : Nat) :
    Inference.messages {inf with calls := inf.calls.map f} n = inf.messages n :=
  List.filter_congr fun event _ => calls_belongs hsame n event

theorem settle (h : Inv inf) (hsame : ∀ call, (f call).id = call.id ∧ (f call).attempt = call.attempt) :
    Inv {inf with calls := inf.calls.map f} := by
  refine ⟨h.numbers, h.generation, h.closed, h.coupled, fun b hb hterminal => ?_, h.unfinished,
    h.sequenced, h.sorted, h.bounded,
    fun event hevent => ?_, ?_, fun call hcall => ?_⟩
  · rw [calls_messages hsame]
    exact h.final b hb hterminal
  · obtain ⟨call, hcall, hid⟩ := h.journaled event hevent
    exact ⟨f call, List.mem_map_of_mem hcall, (hsame call).1.trans hid⟩
  · show ((inf.calls.map f).map Call.id).Nodup
    have hids : (inf.calls.map f).map Call.id = inf.calls.map Call.id := by
      rw [List.map_map]
      exact List.map_congr_left fun call _ => (hsame call).1
    rw [hids]
    exact h.calls
  · obtain ⟨row, hrow, rfl⟩ := List.mem_map.mp hcall
    rw [(hsame row).2]
    exact h.called row hrow

/-- The attempt of an inference that may be resumed is over. -/
theorem ended (h : Inv inf) (hended : inf.status = .paused ∨ inf.status = .interrupted) :
    ∀ a ∈ inf.attempts, a.status.terminal = true := by
  intro a ha
  by_cases hcurrent : a.number = inf.generation
  · have hcoupled := h.coupled a ha hcurrent
    obtain hstatus | hstatus := hended <;> rw [hstatus] at hcoupled <;> cases hattempt :
      a.status <;> rw [hattempt] at hcoupled <;>
      first | rfl | cases hcoupled
  · exact h.closed a ha hcurrent

theorem resume (h : Inv inf) (hended : inf.status = .paused ∨ inf.status = .interrupted) :
    Inv {inf with generation := inf.generation + 1, status := .queued,
                  attempts := inf.attempts ++ [newAttempt (inf.generation + 1) .queued]} := by
  have hmem : ∀ {P : Attempt → Prop}, (∀ a ∈ inf.attempts, P a) → P (newAttempt (inf.generation + 1) .queued) →
      ∀ a ∈ inf.attempts ++ [newAttempt (inf.generation + 1) .queued], P a := by
    intro P hall hnew a ha
    obtain ha | ha := List.mem_append.mp ha
    · exact hall a ha
    · exact List.mem_singleton.mp ha ▸ hnew
  refine ⟨?_, Nat.succ_pos _, hmem (fun a ha _ => h.ended hended a ha) fun hne => absurd rfl hne,
    hmem (fun a ha heq => absurd heq (Nat.ne_of_lt (Nat.lt_succ_of_le (h.number_le ha).2))) fun _ => rfl,
    hmem h.final (fun hterminal => nomatch hterminal), hmem h.unfinished fun _ =>
      rfl, h.sequenced, h.sorted, h.bounded, h.journaled, h.calls,
    fun call hcall => Nat.le_succ_of_le (h.called call hcall)⟩
  rw [List.map_append, h.numbers, List.range'_concat, Nat.one_mul, Nat.add_comm 1]
  rfl

end Inv

theorem Move.inv {inf inf' : Inference} (h : Move inf inf') (hinv : Inv inf) : Inv inf' := by
  cases h with
  | @start a current prepared =>
    have hcoupled := hinv.current_coupled current
    rw [prepared] at hcoupled
    refine hinv.put current ?_ ?_ (Nat.le_refl _) (fun h => nomatch h) fun _ =>
      hinv.unfinished a (current_spec current).1 ?_
    · rfl
    · rfl
    · rw [← eq_of_beq hcoupled]
      rfl
  | @claim a token now current queued =>
    refine hinv.put current ?_ ?_ (Nat.le_refl _) (fun h => nomatch h) fun _ =>
      hinv.unfinished a (current_spec current).1 ?_
    · rfl
    · rfl
    · rw [queued]
      rfl
  | @beat a expiry current running =>
    have hcoupled := hinv.current_coupled current
    refine hinv.put current ?_ ?_ (Nat.le_refl _) (fun h => ?_) fun hopen =>
      hinv.unfinished a (current_spec current).1 hopen
    · rfl
    · exact hcoupled
    · rw [show Status.terminal a.status = false by rw [running]; rfl] at h
      cases h
  | @finish a status result now current unfinished terminal obeys =>
    refine hinv.put current ?_ ?_ (Nat.le_succ _) (fun _ => ⟨?_, ?_, Nat.lt_succ_self _⟩) fun hopen => ?_
    · rfl
    · cases status <;> first | rfl | cases terminal
    · rfl
    · rfl
    · exact absurd (hopen.symm.trans terminal) Bool.false_ne_true
  | @request a status current running asked =>
    refine hinv.status fun b hb hnumber => ?_
    have heq : b = a := hinv.unique hb (current_spec current).1 (hnumber.trans (current_spec current).2.symm)
    rw [heq, running]
    obtain rfl | ⟨rfl, -⟩ := asked <;> rfl
  | resume ended => exact hinv.resume ended
  | stop ended =>
    refine hinv.status fun b hb hnumber => ?_
    have hcoupled := hinv.coupled b hb hnumber
    obtain hstatus | hstatus := ended <;> rw [hstatus] at hcoupled <;> rw [← eq_of_beq hcoupled] <;> rfl
  | revise => exact hinv.status hinv.coupled
  | persist current own fresh captured => exact hinv.persist current own fresh captured
  | append current unfinished own attempt journal next => exact hinv.append current unfinished own attempt journal next
  | calls same => exact hinv.settle same

/-- What stays of an inference, and what is added to it. -/
structure Later (inf inf' : Inference) : Prop where
  id : inf'.id = inf.id
  frozen : ∀ a ∈ inf.attempts, a.status.terminal = true → a ∈ inf'.attempts
  immutable : inf.status.immutable = true → inf'.status = inf.status
  halted : inf.status.halted = true → inf'.status.halted = true
  grows : inf.eventSequence ≤ inf'.eventSequence
  messages : ∀ n, ∃ new, inf'.messages n = inf.messages n ++ new ∧ (∀ event ∈ new, inf.eventSequence < event.order) ∧
    ((∃ a ∈ inf.attempts, a.number = n ∧ a.status.terminal = true) → new = [])

/-- No message is added. -/
theorem same_messages {inf inf' : Inference} (h : ∀ n, inf'.messages n = inf.messages n) (n : Nat) :
    ∃ new, inf'.messages n = inf.messages n ++ new ∧ (∀ event ∈ new, inf.eventSequence < event.order) ∧
      ((∃ a ∈ inf.attempts, a.number = n ∧ a.status.terminal = true) → new = []) :=
  ⟨[], by rw [List.append_nil, h], fun _ hevent => absurd hevent List.not_mem_nil, fun _ => rfl⟩

namespace Later

variable {inf inf' inf'' : Inference}

theorem refl (inf : Inference) : Later inf inf :=
  ⟨rfl, fun _ ha _ => ha, fun _ => rfl, fun h => h, Nat.le_refl _, same_messages fun _ => rfl⟩

theorem trans (h : Later inf inf') (k : Later inf' inf'') : Later inf inf'' := by
  refine ⟨k.id.trans h.id, fun a ha hterminal => k.frozen a (h.frozen a ha hterminal) hterminal, fun himmutable => ?_,
    fun hhalted => k.halted (h.halted hhalted), Nat.le_trans h.grows k.grows, fun n => ?_⟩
  · have hstatus := h.immutable himmutable
    exact (k.immutable (hstatus ▸ himmutable)).trans hstatus
  · obtain ⟨new, hnew, hafter, hnone⟩ := h.messages n
    obtain ⟨more, hmore, hlater, hnomore⟩ := k.messages n
    refine ⟨new ++ more, by rw [hmore, hnew, List.append_assoc], fun event hevent => ?_, fun hover => ?_⟩
    · obtain hevent | hevent := List.mem_append.mp hevent
      · exact hafter event hevent
      · exact Nat.lt_of_le_of_lt h.grows (hlater event hevent)
    · obtain ⟨a, ha, hnumber, hterminal⟩ := hover
      rw [hnone ⟨a, ha, hnumber, hterminal⟩, hnomore ⟨a, h.frozen a ha hterminal, hnumber, hterminal⟩, List.append_nil]

/-- The current attempt, which is not over, is written back. -/
theorem put (hinv : Inv inf) {a a' : Attempt} (ha : inf.current = some a)
    (hopen : a.status.terminal = false) (hnumber : a'.number = a.number)
    {status : Status} {revision eventSequence : Nat} (hgrows : inf.eventSequence ≤ eventSequence)
    (hhalted : inf.status.halted = true → status.halted = true) :
    Later inf ({inf with status, revision, eventSequence}.put a') := by
  have himmutable : inf.status.immutable = false := by
    obtain hstatus | ⟨-, hstatus | hstatus⟩ := coupled_open (hinv.current_coupled ha) hopen
    · rw [hstatus]
      cases hattempt : a.status <;> rw [hattempt] at hopen <;> first | rfl | cases hopen
    · rw [hstatus]
      rfl
    · rw [hstatus]
      rfl
  refine ⟨rfl, fun b hb hterminal => mem_put_of_ne hb fun heq => ?_,
    fun h => absurd (himmutable.symm.trans h) Bool.false_ne_true, hhalted,
    hgrows, same_messages fun _ => rfl⟩
  have hsame : b = a := hinv.unique hb (current_spec ha).1 (heq.trans hnumber)
  rw [hsame, hopen] at hterminal
  cases hterminal

/-- Only the status and the revision change. -/
theorem status {status : Status} {revision : Nat} (himmutable : inf.status.immutable = true → status = inf.status)
    (hhalted : inf.status.halted = true → status.halted = true) : Later inf {inf with status, revision} :=
  ⟨rfl, fun _ ha _ => ha, himmutable, hhalted, Nat.le_refl _, same_messages fun _ => rfl⟩

end Later

theorem Move.later {inf inf' : Inference} (h : Move inf inf') (hinv : Inv inf) : Later inf inf' := by
  cases h with
  | @start a current prepared =>
    have hcoupled := hinv.current_coupled current
    rw [prepared] at hcoupled
    refine Later.put hinv current ?_ ?_ (Nat.le_refl _) fun h => ?_
    · rw [← eq_of_beq hcoupled]
      rfl
    · rfl
    · rw [prepared] at h
      cases h
  | @claim a token now current queued =>
    have hcoupled := hinv.current_coupled current
    refine Later.put hinv current ?_ ?_ (Nat.le_refl _) fun h => ?_
    · rw [queued]
      rfl
    · rfl
    · obtain hstatus | ⟨hrunning, -⟩ := coupled_open hcoupled (by rw [queued]; rfl)
      · rw [hstatus, queued] at h
        cases h
      · exact nomatch queued.symm.trans hrunning
  | @beat a expiry current running =>
    refine Later.put hinv current ?_ ?_ (Nat.le_refl _) fun h => h
    · rw [running]
      rfl
    · rfl
  | @finish a status result now current unfinished terminal obeys =>
    have hcoupled := hinv.current_coupled current
    refine Later.put hinv current unfinished ?_ (Nat.le_succ _) fun h => ?_
    · rfl
    · obtain hstatus | ⟨-, hstatus | hstatus⟩ := coupled_open hcoupled unfinished
      · rw [hstatus] at h
        cases hattempt : a.status <;> rw [hattempt] at h unfinished <;>
          first | exact absurd h (by decide) | exact absurd unfinished (by decide) | skip
        rw [obeys .stopped (by rw [hstatus, hattempt]; rfl)]
        rfl
      · rw [hstatus] at h
        cases h
      · rw [obeys .stopped (by rw [hstatus]; rfl)]
        rfl
  | @request a status current running asked =>
    have hstatus := coupled_open (hinv.current_coupled current) (by rw [running]; rfl)
    rw [running] at hstatus
    refine Later.status (fun h => ?_) fun h => ?_
    · obtain hstatus | ⟨-, hstatus | hstatus⟩ := hstatus <;> rw [hstatus] at h <;> cases h
    · obtain rfl | ⟨rfl, hne⟩ := asked
      · rfl
      · obtain hstatus | ⟨-, hstatus | hstatus⟩ := hstatus
        · rw [hstatus] at h
          cases h
        · rw [hstatus] at h
          cases h
        · exact absurd hstatus hne
  | resume ended =>
    refine ⟨rfl, fun _ ha _ => List.mem_append_left _ ha, fun h => ?_, fun h => ?_, Nat.le_refl _,
      same_messages fun _ => rfl⟩ <;>
      obtain hstatus | hstatus := ended <;> rw [hstatus] at h <;> cases h
  | stop ended =>
    refine Later.status (fun h => ?_) fun _ => rfl
    obtain hstatus | hstatus := ended <;> rw [hstatus] at h <;> cases h
  | revise => exact Later.status (fun _ => rfl) fun h => h
  | persist current own fresh captured =>
    exact ⟨rfl, fun _ ha _ => ha, fun _ => rfl, fun h => h, Nat.le_refl _,
      same_messages (hinv.persist_messages fresh captured)⟩
  | @append a call event current unfinished own attempt journal next =>
    refine ⟨rfl, fun _ ha _ => ha, fun _ => rfl, fun h => h, Nat.le_succ _,
      fun n => ⟨[event].filter (inf.belongs n), ?_, ?_, ?_⟩⟩
    · exact List.filter_append _ _
    · intro other hother
      rw [List.mem_singleton.mp (List.mem_filter.mp hother).1, CallEvent.order, next]
      exact Nat.lt_succ_self _
    · rintro ⟨b, hb, rfl, hterminal⟩
      refine List.filter_eq_nil_iff.mpr fun other hother hbelongs => ?_
      obtain rfl := List.mem_singleton.mp hother
      obtain ⟨owner, howner, hsame⟩ := List.any_eq_true.mp (Bool.and_eq_true_iff.mp hbelongs).2
      obtain ⟨hid, hnumber⟩ := Bool.and_eq_true_iff.mp hsame
      have hsame : owner = call := hinv.call_unique howner own ((of_decide_eq_true hid).trans journal)
      have heq : b = a := hinv.unique hb (current_spec current).1
          ((of_decide_eq_true hnumber).symm.trans (hsame ▸ attempt))
      rw [heq, unfinished] at hterminal
      cases hterminal
  | calls same => exact ⟨rfl, fun _ ha _ => ha, fun _ => rfl, fun h => h, Nat.le_refl _, same_messages (Inv.calls_messages same)⟩

/-- A sequence of moves. -/
abbrev Moves : Inference → Inference → Prop := Relation.ReflTransGen Move

theorem Moves.spec {inf inf' : Inference} (h : Moves inf inf') (hinv : Inv inf) : Inv inf' ∧ Later inf inf' := by
  induction h with
  | refl => exact ⟨hinv, Later.refl inf⟩
  | tail _ hmove ih => exact ⟨hmove.inv ih.1, ih.2.trans (hmove.later ih.1)⟩

end Galaris.Llm.InferenceStore
