import Galaris.Llm.InferenceLifecycle

/-! What holds of inferences, and of the clients that page their events, in every run.

A client has received the messages of its attempt up to its cursor (`Reads`); since messages are only
appended, above the sequence of the inference, and none to an attempt that is over, this stays so while
transactions come between its statements. -/
namespace Galaris.Llm.InferenceStore

open Transition

/-! ### Messages -/

theorem message_order {inf : Inference} (hinv : Inv inf) {n : Nat} {event : CallEvent} (h : event ∈ inf.messages n) :
    event.inferenceSequence = some event.order ∧ ∃ message, event.message? = some message := by
  obtain ⟨hmem, hbelongs⟩ := List.mem_filter.mp h
  obtain ⟨message, hmessage⟩ := Option.isSome_iff_exists.mp (Bool.and_eq_true_iff.mp hbelongs).1
  obtain ⟨sequence, hsequence⟩ :=
    Option.isSome_iff_exists.mp (hinv.sequenced event hmem (Bool.and_eq_true_iff.mp hbelongs).1)
  exact ⟨by rw [CallEvent.order, hsequence]; rfl, message, hmessage⟩

theorem messages_sorted {inf : Inference} (hinv : Inv inf) (n : Nat) :
    (inf.messages n).Pairwise fun a b => a.order < b.order := by
  have hsorted := (List.pairwise_filterMap.mp hinv.sorted).sublist (List.filter_sublist (p := inf.belongs n))
  refine hsorted.imp_of_mem fun ha hb hlt => ?_
  exact hlt _ (message_order hinv ha).1 _ (message_order hinv hb).1

theorem messages_bounded {inf : Inference} (hinv : Inv inf) {n : Nat} {event : CallEvent} (h : event ∈ inf.messages n) :
    0 < event.order ∧ event.order ≤ inf.eventSequence :=
  hinv.bounded event (List.mem_filter.mp h).1 _ (message_order hinv h).1

/-- The order in which messages are read is that in which they were committed. -/
theorem messageEvents_eq {inf : Inference} (hinv : Inv inf) (n : Nat) : inf.messageEvents n = inf.messages n :=
  List.mergeSort_of_pairwise ((messages_sorted hinv n).imp fun hlt => decide_eq_true (Nat.le_of_lt hlt))

theorem run_eq {inf : Inference} (hinv : Inv inf) {n : Nat} {event : CallEvent} (h : event ∈ inf.messages n) :
    ∃ message, event.run = some (.message event.order event.call message) := by
  obtain ⟨message, hmessage⟩ := (message_order hinv h).2
  exact ⟨message, by rw [CallEvent.run, hmessage]; rfl⟩

theorem run_isResult {events : List CallEvent} : (events.filterMap CallEvent.run).any RunEvent.isResult = false := by
  refine List.any_eq_false.mpr fun sent hsent => ?_
  obtain ⟨event, -, hrun⟩ := List.mem_filterMap.mp hsent
  obtain ⟨message, -, rfl⟩ := Option.map_eq_some_iff.mp hrun
  exact Bool.false_ne_true

/-! ### Clients -/

/-- The result of an attempt that is over has been received. -/
def Ended (inf : Inference) (reader : Reader) (seen : List CallEvent) : Prop :=
  ∃ a ∈ inf.attempts, a.number = reader.attempt ∧ a.status.terminal = true ∧ ∃ final result,
    a.finalSequence = some final ∧
    a.result = some result ∧ reader.received = seen.filterMap CallEvent.run ++ [.result final result]

/-- What a client has received. -/
structure Reads (inf : Inference) (reader : Reader) : Prop where
  parts : ∃ seen rest, inf.messages reader.attempt = seen ++ rest ∧ (∀ event ∈ seen, event.order ≤ reader.cursor) ∧
    (∀ event ∈ rest, reader.cursor < event.order) ∧
    (reader.received = seen.filterMap CallEvent.run ∨ rest = [] ∧ Ended inf reader seen)
  bounded : reader.cursor ≤ inf.eventSequence
  reading : ∀ a limit, reader.reading = some (a, limit) → reader.over = false ∧ a.number = reader.attempt ∧
    (a.finalSequence = none ∨ a ∈ inf.attempts ∧ a.status.terminal = true)

theorem Reads.later {inf inf' : Inference} {reader : Reader} (h : Reads inf reader)
    (hlater : Later inf inf') : Reads inf' reader := by
  obtain ⟨seen, rest, hparts, hseen, hrest, hreceived⟩ := h.parts
  obtain ⟨new, hnew, hafter, hnone⟩ := hlater.messages reader.attempt
  refine ⟨⟨seen, rest ++ new, by rw [hnew, hparts, List.append_assoc], hseen, fun event hevent => ?_, ?_⟩,
    Nat.le_trans h.bounded hlater.grows, fun a limit hreading => ?_⟩
  · obtain hevent | hevent := List.mem_append.mp hevent
    · exact hrest event hevent
    · exact Nat.lt_of_le_of_lt h.bounded (hafter event hevent)
  · refine hreceived.imp_right ?_
    rintro ⟨rfl, a, ha, hnumber, hterminal, hresult⟩
    exact ⟨hnone ⟨a, ha, hnumber, hterminal⟩, a, hlater.frozen a ha hterminal, hnumber, hterminal, hresult⟩
  · obtain ⟨hopen, hnumber, hattempt⟩ := h.reading a limit hreading
    exact ⟨hopen, hnumber, hattempt.imp_right fun ⟨ha, hterminal⟩ => ⟨hlater.frozen a ha hterminal, hterminal⟩⟩

/-- Between two batches, no transaction has read. -/
theorem not_reading {reader : Reader} {P : Attempt → Nat → Prop} (h : reader.reading = none) :
    ∀ a limit, reader.reading = some (a, limit) → P a limit := by
  intro a limit hreading
  rw [h] at hreading
  cases hreading

/-- A client that has received nothing. -/
theorem Reads.initial {inf : Inference} {reader : Reader} (hinv : Inv inf)
    (hcursor : reader.cursor = 0) (hreading : reader.reading = none)
    (hreceived : reader.received = []) : Reads inf reader := by
  refine ⟨⟨[], inf.messages reader.attempt, rfl, fun event hevent => absurd hevent List.not_mem_nil,
    fun event hevent => ?_, .inl hreceived⟩,
    hcursor ▸ Nat.zero_le _, not_reading hreading⟩
  rw [hcursor]
  exact (messages_bounded hinv hevent).1

/-- A client reads the attempt. -/
theorem Reads.look {inf : Inference} {reader : Reader} {a : Attempt} {limit : Nat} (hinv : Inv inf)
    (h : Reads inf reader)
    (hopen : reader.over = false) (ha : a ∈ inf.attempts) (hnumber : a.number = reader.attempt) :
    Reads inf {reader with reading := some (a, limit)} := by
  refine ⟨h.parts, h.bounded, fun b limit' hreading => ?_⟩
  obtain ⟨rfl, -⟩ := Prod.mk.inj (Option.some.inj hreading)
  refine ⟨hopen, hnumber, ?_⟩
  cases hterminal : a.status.terminal with
  | false => exact .inl (hinv.unfinished a ha hterminal)
  | true => exact .inr ⟨ha, rfl⟩

/-- Every row is sent. -/
theorem run_length {inf : Inference} (hinv : Inv inf) {n : Nat} {events : List CallEvent}
    (h : ∀ event ∈ events, event ∈ inf.messages n) :
    (events.filterMap CallEvent.run).length = events.length := by
  refine List.filterMap_length_eq_length.mpr fun event hevent => ?_
  obtain ⟨message, hrun⟩ := run_eq hinv (h event hevent)
  rw [hrun]
  rfl

/-- The rows that are after the cursor. -/
theorem batchRows_eq {inf : Inference} (hinv : Inv inf) {n cursor limit : Nat} {seen rest : List CallEvent}
    (hparts : inf.messages n = seen ++ rest) (hseen : ∀ event ∈ seen, event.order ≤ cursor)
    (hrest : ∀ event ∈ rest, cursor < event.order) :
    batchRows inf n cursor limit = rest.take limit := by
  have horder : ∀ event ∈ inf.messages n,
      (event.inferenceSequence.any (cursor < ·)) = decide (cursor < event.order) := by
    intro event hevent
    rw [(message_order hinv hevent).1]
    rfl
  unfold batchRows
  rw [messageEvents_eq hinv, List.filter_congr horder, hparts, List.filter_append,
    List.filter_eq_nil_iff.mpr fun event hevent hlt =>
    absurd (of_decide_eq_true hlt) (Nat.not_lt.mpr (hseen event hevent)),
    List.filter_eq_self.mpr fun event hevent => decide_eq_true (hrest event hevent), List.nil_append]

/-- A client takes a batch without a result. -/
theorem Reads.advance {inf : Inference} {reader : Reader} (hinv : Inv inf) {seen rest : List CallEvent} (limit : Nat)
    (hparts : inf.messages reader.attempt = seen ++ rest) (hseen : ∀ event ∈ seen, event.order ≤ reader.cursor)
    (hrest : ∀ event ∈ rest, reader.cursor < event.order) (hbounded : reader.cursor ≤ inf.eventSequence)
    (hreceived : reader.received = seen.filterMap CallEvent.run) :
    Reads inf (reader.receive ((rest.take limit).filterMap CallEvent.run)) := by
  have hmem : ∀ event ∈ rest, event ∈ inf.messages reader.attempt :=
      fun event hevent => hparts ▸ List.mem_append_right _ hevent
  have hreceived' : (reader.receive ((rest.take limit).filterMap CallEvent.run)).received =
      (seen ++ rest.take limit).filterMap CallEvent.run := by
    rw [List.filterMap_append, ← hreceived]
    rfl
  have hsplit : inf.messages reader.attempt = seen ++ rest.take limit ++ rest.drop limit := by
    rw [List.append_assoc, List.take_append_drop, hparts]
  obtain hnone | ⟨before, last, hlast⟩ := List.eq_nil_or_concat (rest.take limit)
  · have hcursor : (reader.receive ((rest.take limit).filterMap CallEvent.run)).cursor = reader.cursor := by
      rw [hnone]
      rfl
    refine ⟨⟨seen ++ rest.take limit, rest.drop limit, hsplit, fun event hevent => ?_,
      fun event hevent => ?_, .inl hreceived'⟩, ?_, not_reading rfl⟩
    · rw [hnone, List.append_nil] at hevent
      exact hcursor ▸ hseen event hevent
    · exact hcursor ▸ hrest event (List.mem_of_mem_drop hevent)
    · exact hcursor ▸ hbounded
  · rw [List.concat_eq_append] at hlast
    have hlasttaken : last ∈ rest.take limit := by
      rw [hlast]
      exact List.mem_append_right _ (List.mem_singleton.mpr rfl)
    have hlastmem : last ∈ rest := List.mem_of_mem_take hlasttaken
    obtain ⟨message, hrun⟩ := run_eq hinv (hmem last hlastmem)
    have hcursor : (reader.receive ((rest.take limit).filterMap CallEvent.run)).cursor = last.order := by
      unfold Reader.receive
      rw [hlast, List.filterMap_append, List.filterMap_cons_some hrun, List.filterMap_nil, List.getLast?_concat]
      rfl
    have hsorted := messages_sorted hinv reader.attempt
    rw [hsplit] at hsorted
    obtain ⟨hbefore, -, hafter⟩ := List.pairwise_append.mp hsorted
    have hlastseen : last ∈ seen ++ rest.take limit := List.mem_append_right _ hlasttaken
    refine ⟨⟨seen ++ rest.take limit, rest.drop limit, hsplit, fun event hevent => ?_,
      fun event hevent => ?_, .inl hreceived'⟩, ?_, not_reading rfl⟩
    · rw [hcursor]
      rw [hlast, ← List.append_assoc] at hbefore hevent
      obtain hevent | hevent := List.mem_append.mp hevent
      · exact Nat.le_of_lt ((List.pairwise_append.mp hbefore).2.2 event hevent last (List.mem_singleton.mpr rfl))
      · exact Nat.le_of_eq (congrArg CallEvent.order (List.mem_singleton.mp hevent))
    · rw [hcursor]
      exact hafter last hlastseen event hevent
    · rw [hcursor]
      exact (messages_bounded hinv (hmem last hlastmem)).2

/-- A client takes a batch, of the attempt that it has read. -/
theorem Reads.fetch {inf : Inference} {reader : Reader} {a : Attempt} {limit : Nat} (hinv : Inv inf)
    (h : Reads inf reader)
    (hreading : reader.reading = some (a, limit)) :
    Reads inf (reader.receive (readEventBatch inf a reader.cursor limit)) := by
  obtain ⟨hopen, hnumber, hattempt⟩ := h.reading a limit hreading
  obtain ⟨seen, rest, hparts, hseen, hrest, hreceived | ⟨-, b, -, -, -, final, result, -, -, hreceived⟩⟩ := h.parts
  case inr =>
    rw [Reader.over, hreceived, List.any_append, List.any_cons] at hopen
    simp [RunEvent.isResult] at hopen
  case inl =>
    have hrows : batchRows inf a.number reader.cursor limit = rest.take limit := by
      rw [hnumber]
      exact batchRows_eq hinv hparts hseen hrest
    have hplain := Reads.advance hinv limit hparts hseen hrest h.bounded hreceived
    unfold readEventBatch
    dsimp only
    rw [hrows]
    split
    case h_2 => exact hplain
    case h_1 final result hfinal hresult =>
      split
      case isFalse => exact hplain
      case isTrue hlast =>
        -- The page is not full, so it has all the messages.
        obtain hnone | ⟨ha, hterminal⟩ := hattempt
        · exact nomatch hfinal.symm.trans hnone
        · have hmem : ∀ event ∈ rest, event ∈ inf.messages reader.attempt :=
              fun event hevent => hparts ▸ List.mem_append_right _ hevent
          have hlength : ((rest.take limit).filterMap CallEvent.run).length = (rest.take limit).length :=
            run_length hinv fun event hevent => hmem event (List.mem_of_mem_take hevent)
          have hall : rest.take limit = rest := by
            rw [hlength, List.length_take] at hlast
            exact List.take_of_length_le (by simp at hlast; omega)
          obtain ⟨-, final', hfinal', -, hle, hbefore⟩ := hinv.final a ha hterminal
          obtain rfl := Option.some.inj (hfinal.symm.trans hfinal')
          have hcursor : (reader.receive ((rest.take limit).filterMap CallEvent.run ++
              [.result final result])).cursor = final := by
            unfold Reader.receive
            rw [List.getLast?_concat]
            rfl
          refine ⟨⟨seen ++ rest, [], by rw [List.append_nil]; exact hparts, fun event hevent => ?_,
            fun event hevent => absurd hevent List.not_mem_nil,
            .inr ⟨rfl, a, ha, hnumber, hterminal, final, result, hfinal, hresult, ?_⟩⟩, ?_,
            not_reading rfl⟩
          · rw [hcursor]
            have hevent' : event ∈ inf.messages a.number := by
              rw [hnumber]
              exact hparts ▸ hevent
            exact Nat.le_of_lt (hbefore event hevent')
          · rw [hall, List.filterMap_append, ← hreceived, List.append_assoc]
            rfl
          · rw [hcursor]
            exact hle

/-! ### Runs -/

/-- What an event does to the store: the inferences advance, and at most one command is accepted. -/
structure Commits (s s' : Store) : Prop where
  spec : ∃ next receipts, Advances s next ∧ s' = {next with commands := next.commands ++ receipts} ∧
    (receipts.map Command.id).Nodup ∧ ∀ receipt ∈ receipts, s.command? receipt.id = none ∧
      (receipt.action = .stop → ∃ inf, next.inferences receipt.inference = some inf ∧ inf.status.halted = true)

namespace Commits

variable {s s' : Store}

theorem of_advances (h : Advances s s') : Commits s s' :=
  ⟨s', [], h, by rw [List.append_nil], List.nodup_nil, fun _ hreceipt => absurd hreceipt List.not_mem_nil⟩

theorem of_command {key : Id} {action : Action} {id : Id} {expectedRevision : Option Nat}
    {fresh now : Nat} {receipt : Command}
    (hinv : StoreInv s) (h : s.command key action id expectedRevision fresh now =
      .ok (s', receipt)) : Commits s s' := by
  obtain ⟨hidentity, ⟨rfl, -⟩ | ⟨hnone, next, hadvances, rfl, hhalted⟩⟩ := Store.command_spec hinv h
  · exact of_advances (.refl s')
  · obtain ⟨hid, hidentity⟩ := Prod.mk.inj hidentity
    obtain ⟨hinference, hidentity⟩ := Prod.mk.inj hidentity
    obtain ⟨haction, -⟩ := Prod.mk.inj hidentity
    refine ⟨next, [receipt], hadvances, rfl, List.nodup_singleton _, fun other hother => ?_⟩
    obtain rfl := List.mem_singleton.mp hother
    exact ⟨hid ▸ hnone, fun hstop => hinference ▸ hhalted (haction ▸ hstop)⟩

theorem later (h : Commits s s') (hinv : StoreInv s) {key : Id} {inf : Inference} (hkey : s.inferences key = some inf) :
    ∃ inf', s'.inferences key = some inf' ∧ Later inf inf' := by
  obtain ⟨next, receipts, hadvances, rfl, -⟩ := h.spec
  exact hadvances.later hinv hkey

theorem command?_none {id : Id} : s.command? id = none ↔ id ∉ s.commands.map Command.id := by
  unfold Store.command?
  rw [List.find?_eq_none, List.mem_map]
  simp

theorem storeInv (h : Commits s s') (hinv : StoreInv s) : StoreInv s' := by
  obtain ⟨next, receipts, hadvances, rfl, hnodup, hreceipts⟩ := h.spec
  have hnext := hadvances.storeInv hinv
  have hids : next.commands.map Command.id = s.commands.map Command.id := by
    have hcommands := congrArg (List.map Prod.fst) hadvances.commands
    rw [List.map_map, List.map_map] at hcommands
    exact hcommands
  refine ⟨hnext.ids, hnext.inferences, ?_, fun command hcommand hstop => ?_⟩
  · show ((next.commands ++ receipts).map Command.id).Nodup
    rw [List.map_append, hids, List.nodup_append]
    refine ⟨hinv.commands, hnodup, fun id hid other hother heq => ?_⟩
    obtain ⟨receipt, hreceipt, rfl⟩ := List.mem_map.mp hother
    exact command?_none.mp (hreceipts receipt hreceipt).1 (heq ▸ hid)
  · obtain hcommand | hcommand := List.mem_append.mp hcommand
    · exact hnext.stops command hcommand hstop
    · exact (hreceipts command hcommand).2 hstop

/-- The receipt of a command stays. -/
theorem receipt (h : Commits s s') {identity : Id × Id × Action × Option Nat}
    (hmem : identity ∈ s.commands.map Command.identity) :
    identity ∈ s'.commands.map Command.identity := by
  obtain ⟨next, receipts, hadvances, rfl, -⟩ := h.spec
  rw [← hadvances.commands] at hmem
  show identity ∈ (next.commands ++ receipts).map Command.identity
  rw [List.map_append]
  exact List.mem_append_left _ hmem

end Commits

theorem committed_commits {s : State} {result : Except Error Store} (h : ∀ s', result = .ok s' →
    Commits s.toStore s') : Commits s.toStore (s.committed result).toStore := by
  cases result with
  | error error => exact Commits.of_advances (.refl _)
  | ok s' => exact h s' rfl

theorem apply_commits {s : State} (hinv : StoreInv s.toStore) (event : Event) :
    Commits s.toStore (apply s event).toStore := by
  have hone : ∀ {result : Except Error Store}, (∀ s', result = .ok s' → Advances s.toStore s') →
      Commits s.toStore (s.committed result).toStore := fun h => committed_commits fun s' hok => .of_advances (h s' hok)
  have hsame : ∀ {s' : State}, s'.toStore = s.toStore → Commits s.toStore s'.toStore :=
      fun h => h ▸ .of_advances (.refl _)
  cases event with
  | create key request authority prepared now => exact hone fun s' => Store.create_advances
  | claim key token now => exact hone fun s' => Store.claim_advances hinv
  | heartbeat owner checked now => exact hone fun s' => Store.heartbeat_advances hinv
  | finish owner result interrupted checked expiry now => exact hone fun s' => Store.finish_advances hinv
  | command key action id expectedRevision fresh now =>
    refine committed_commits fun s' hok => ?_
    obtain ⟨⟨s'', receipt⟩, hcommand, rfl⟩ := Results.map_eq_ok.mp hok
    exact .of_command hinv hcommand
  | recover keys now => exact hone fun s' => Store.recoverExpired_advances hinv
  | persistCall owner call prompt systemPrompt captured now =>
    exact hone fun s' => Store.persistRunningCall_advances hinv
  | finalizeCall key call error => exact .of_advances (Store.finalizeCall_advances hinv)
  | append owner call payloads now => exact hone fun s' => Store.appendEvents_advances hinv
  | page reader key attempt =>
    refine hsame ?_
    show (s.page reader key attempt).toStore = _
    unfold State.page
    split <;> rfl
  | look reader limit =>
    refine hsame ?_
    show (s.look reader limit).toStore = _
    unfold State.look
    repeat' split
    all_goals rfl
  | fetch reader =>
    refine hsame ?_
    show (s.fetch reader).toStore = _
    unfold State.fetch
    repeat' split
    all_goals rfl

/-- What a client has received, of an inference that may not be there yet. -/
def ReadsAt (s : Store) (reader : Reader) : Prop :=
  match s.inferences reader.inference with
  | none => reader.cursor = 0 ∧ reader.reading = none ∧ reader.received = []
  | some inf => Reads inf reader

structure StateInv (s : State) : Prop where
  store : StoreInv s.toStore
  readers : ∀ id reader, s.readers id = some reader → ReadsAt s.toStore reader

theorem ReadsAt.commits {s s' : Store} {reader : Reader} (hinv : StoreInv s) (h : Commits s s')
    (hreads : ReadsAt s reader) :
    ReadsAt s' reader := by
  unfold ReadsAt at hreads ⊢
  cases hkey : s.inferences reader.inference with
  | some inf =>
    rw [hkey] at hreads
    obtain ⟨inf', hkey', hlater⟩ := h.later hinv hkey
    rw [hkey']
    exact hreads.later hlater
  | none =>
    rw [hkey] at hreads
    cases hkey' : s'.inferences reader.inference with
    | none => exact hreads
    | some inf' => exact Reads.initial ((h.storeInv hinv).inferences _ inf' hkey') hreads.1 hreads.2.1 hreads.2.2

theorem apply_inv {s : State} (hinv : StateInv s) (event : Event) : StateInv (apply s event) := by
  have hcommits := apply_commits hinv.store event
  refine ⟨hcommits.storeInv hinv.store, ?_⟩
  -- Transactions that write do not know the clients.
  have hwrites : (apply s event).readers = s.readers → ∀ id reader, (apply s event).readers id = some reader →
      ReadsAt (apply s event).toStore reader := by
    intro hreaders id reader hid
    rw [hreaders] at hid
    exact (hinv.readers id reader hid).commits hinv.store hcommits
  have hcommitted : ∀ result, (s.committed result).readers = s.readers := fun result => by cases result <;> rfl
  have hupdate : ∀ {id : Id} {reader : Reader}, ReadsAt s.toStore reader → ∀ other reader',
      Function.update s.readers id (some reader) other = some reader' → ReadsAt s.toStore reader' := by
    intro id reader hreads other reader' hother
    by_cases heq : other = id
    · rw [heq, Function.update_self] at hother
      exact Option.some.inj hother ▸ hreads
    · rw [Function.update_of_ne heq] at hother
      exact hinv.readers other reader' hother
  cases event with
  | page id key attempt =>
    show ∀ other reader', (s.page id key attempt).readers other = some reader' →
        ReadsAt (s.page id key attempt).toStore reader'
    unfold State.page
    split
    case isTrue =>
      refine hupdate ?_
      unfold ReadsAt
      dsimp only
      cases hkey : s.inferences key with
      | none => exact ⟨rfl, rfl, rfl⟩
      | some inf => exact Reads.initial (hinv.store.inferences key inf hkey) rfl rfl rfl
    case isFalse => exact hinv.readers
  | look id limit =>
    show ∀ other reader', (s.look id limit).readers other = some reader' → ReadsAt (s.look id limit).toStore reader'
    unfold State.look
    split
    case h_1 => exact hinv.readers
    case h_2 reader hreader =>
      split
      case isTrue => exact hinv.readers
      case isFalse hopen =>
        split
        case h_1 => exact hinv.readers
        case h_2 attempt hattempt =>
          refine hupdate ?_
          obtain ⟨inf, hkey, hfound⟩ := Option.bind_eq_some_iff.mp hattempt
          have hreads := hinv.readers id reader hreader
          unfold ReadsAt at hreads ⊢
          rw [hkey] at hreads
          simp only [Bool.or_eq_true, not_or, Bool.not_eq_true] at hopen
          dsimp only
          rw [hkey]
          exact hreads.look (hinv.store.inferences _ inf hkey) hopen.1.1
            (List.mem_of_find?_eq_some hfound) (by simpa using List.find?_some hfound)
  | fetch id =>
    show ∀ other reader', (s.fetch id).readers other = some reader' → ReadsAt (s.fetch id).toStore reader'
    unfold State.fetch
    split
    case h_1 => exact hinv.readers
    case h_2 reader hreader =>
      split
      case h_2 => exact hinv.readers
      case h_1 attempt limit inf hreading hkey =>
        refine hupdate ?_
        have hreads := hinv.readers id reader hreader
        unfold ReadsAt at hreads ⊢
        rw [hkey] at hreads
        show match s.inferences reader.inference with
          | none => _
          | some inf => _
        rw [hkey]
        exact hreads.fetch (hinv.store.inferences _ inf hkey) hreading
  | finalizeCall key call error => exact hwrites rfl
  | _ => exact hwrites (hcommitted _)

theorem start_inv : StateInv start := by
  refine ⟨⟨fun key inf hkey => ?_, fun key inf hkey => ?_, List.nodup_nil,
    fun _ hcommand => absurd hcommand List.not_mem_nil⟩,
    fun id reader hid => ?_⟩
  · cases hkey
  · cases hkey
  · cases hid

theorem run_inv {s t : State} {events : List Event} (h : Steps Applies s events t) (hs : StateInv s) : StateInv t :=
  h.invariant (fun _ event _ hinv hstep => hstep ▸ apply_inv hinv event) hs

theorem run_later {s t : State} {events : List Event} (h : Steps Applies s events t)
    (hs : StateInv s) {key : Id} {inf : Inference}
    (hkey : s.inferences key = some inf) : ∃ inf', t.inferences key = some inf' ∧ Later inf inf' := by
  induction h generalizing inf with
  | nil => exact ⟨inf, hkey, Later.refl inf⟩
  | @cons s u t event rest hstep _ ih =>
    obtain rfl : apply s event = u := hstep
    obtain ⟨next, hnext, hlater⟩ := (apply_commits hs.store event).later hs.store hkey
    obtain ⟨inf', hkey', hlater'⟩ := ih (apply_inv hs event) hnext
    exact ⟨inf', hkey', hlater.trans hlater'⟩

theorem run_receipt {s t : State} {events : List Event} (h : Steps Applies s events t) (hs : StateInv s)
    {identity : Id × Id × Action × Option Nat} (hmem : identity ∈ s.commands.map Command.identity) :
    identity ∈ t.commands.map Command.identity := by
  refine (h.invariant (P := fun u => StateInv u ∧ identity ∈ u.commands.map Command.identity)
    (fun u event v hu hstep => ?_) ⟨hs, hmem⟩).2
  obtain rfl : apply u event = v := hstep
  exact ⟨apply_inv hu.1 event, (apply_commits hu.1.store event).receipt hu.2⟩

/-- A command that was accepted is not applied again. -/
theorem command_again {s : State} {id : Id} (h : id ∈ s.commands.map Command.id) (key : Id)
    (action : Action) (expectedRevision : Option Nat)
    (fresh now : Nat) : apply s (.command key action id expectedRevision fresh now) = s := by
  show s.committed ((s.command key action id expectedRevision fresh now).map Prod.fst) = s
  cases hcommand : s.command key action id expectedRevision fresh now with
  | error error => rfl
  | ok result =>
    obtain ⟨s', receipt⟩ := result
    obtain ⟨⟨inf, a⟩, -, hrest⟩ := Results.bind_eq_ok.mp hcommand
    dsimp only at hrest
    split at hrest
    case h_1 =>
      split at hrest
      case isTrue => cases hrest
      case isFalse =>
        obtain ⟨rfl, -⟩ := Prod.mk.inj (Except.ok.inj hrest)
        rfl
    case h_2 hnone => exact absurd h (Commits.command?_none.mp hnone)

/-- What a transaction of an owner begins with raises. -/
theorem owned_error {s : Store} {owner : Owner} {now : Nat} (h : ¬ s.Owns owner now) :
    ∃ error, s.owned owner now = .error error := by
  cases howned : s.owned owner now with
  | error error => exact ⟨error, rfl⟩
  | ok result => exact absurd (@Store.owned_spec s result.1 result.2 owner now howned).2.2.2.2 h

theorem apply_not_owned {s : State} {owner : Owner} {now : Nat} (h : ¬ s.toStore.Owns owner now) :
    (∀ now', apply s (.heartbeat owner now now') = s) ∧
    (∀ result interrupted expiry now', apply s (.finish owner result interrupted now expiry now') = s) ∧
    (∀ call prompt systemPrompt captured, apply s (.persistCall owner call prompt systemPrompt captured now) = s) ∧
    ∀ call payloads, apply s (.append owner call payloads now) = s := by
  obtain ⟨error, herror⟩ := owned_error h
  have hraises : ∀ {result : Except Error Store} (f : Inference × Attempt → Except Error Store),
      result = (s.owned owner now >>= f) → s.committed result = s := by
    intro result f hresult
    rw [hresult, herror]
    rfl
  refine ⟨fun now' => hraises _ rfl, fun result interrupted expiry now' => hraises _ rfl,
    fun call prompt systemPrompt captured => hraises _ rfl, fun call payloads => ?_⟩
  show s.committed (s.appendEvents owner call payloads now) = s
  unfold Store.appendEvents
  split
  case isTrue => rfl
  case isFalse =>
    split
    case isTrue => rfl
    case isFalse =>
      split
      case isTrue => rfl
      case isFalse => exact hraises _ rfl

/-- In every run, of an inference: one attempt has the number of its generation, and no other is open; what
is over stays as it is, and so does the status of an inference that is immutable; after an accepted stop it
is stopping or stopped; a command that was accepted does nothing again; a worker without the current token
does nothing; and a client that has received the result has received every message of the attempt before it,
once and in order. -/
theorem inference_lifecycle {events : List Event} {s : State} (h : Steps Applies start events s) :
    (∀ key inf, s.inferences key = some inf → (inf.attempts.filter (·.number = inf.generation)).length = 1 ∧
      ∀ a ∈ inf.attempts, a.status.terminal = false → a.number = inf.generation) ∧
    (∀ more t, Steps Applies s more t → ∀ key inf, s.inferences key = some inf → ∃ inf', t.inferences key = some inf' ∧
      (∀ a ∈ inf.attempts, a.status.terminal = true → a ∈ inf'.attempts ∧ ∀ b ∈ inf'.attempts,
        b.number = a.number → b = a) ∧
      (inf.status.immutable = true → inf'.status = inf.status)) ∧
    (∀ key action id expectedRevision fresh now s' receipt,
      s.command key action id expectedRevision fresh now = .ok (s', receipt) →
      ∀ more t, Steps Applies (s.committed (.ok s')) more t →
        (action = .stop → ∃ inf, t.inferences key = some inf ∧ (inf.status = .stopping ∨ inf.status = .stopped)) ∧
        ∀ key' action' expectedRevision' fresh' now',
        apply t (.command key' action' id expectedRevision' fresh' now') = t) ∧
    (∀ owner now, ¬ s.Owns owner now →
      (∀ now', apply s (.heartbeat owner now now') = s) ∧
      (∀ result interrupted expiry now', apply s (.finish owner result interrupted now expiry now') = s) ∧
      (∀ call prompt systemPrompt captured, apply s (.persistCall owner call prompt systemPrompt captured now) = s) ∧
      ∀ call payloads, apply s (.append owner call payloads now) = s) ∧
    ∀ id reader, s.readers id = some reader → reader.over = true → ∃ inf, s.inferences reader.inference = some inf ∧
      (inf.messages reader.attempt).Pairwise (fun a b => a.order < b.order) ∧
      (∀ event ∈ inf.messages reader.attempt, event.run.isSome = true) ∧ ∃ final result,
        reader.received = (inf.messages reader.attempt).filterMap CallEvent.run ++ [.result final result] := by
  have hinv : StateInv s := run_inv h start_inv
  refine ⟨fun key inf hkey => ?_, fun more t hmore key inf hkey => ?_,
    fun key action id expectedRevision fresh now s' receipt hcommand more t hmore => ?_,
    fun owner now howns => apply_not_owned howns, fun id reader hid hover => ?_⟩
  · have hinf := hinv.store.inferences key inf hkey
    refine ⟨?_, fun a ha hopen => Decidable.by_contra fun hne => ?_⟩
    · have hcount : (inf.attempts.map Attempt.number).count inf.generation = 1 := by
        rw [hinf.numbers]
        exact List.count_eq_one_of_mem List.nodup_range' (List.mem_range'_1.mpr ⟨hinf.generation, by omega⟩)
      rw [← List.countP_eq_length_filter, ← hcount, List.count, List.countP_map]
      rfl
    · rw [hinf.closed a ha hne] at hopen
      cases hopen
  · obtain ⟨inf', hkey', hlater⟩ := run_later hmore hinv hkey
    have hinf' := (run_inv hmore hinv).store.inferences key inf' hkey'
    exact ⟨inf', hkey', fun a ha hterminal =>
      ⟨hlater.frozen a ha hterminal, fun b hb => hinf'.unique hb (hlater.frozen a ha hterminal)⟩,
      hlater.immutable⟩
  · have hstep : Applies s (.command key action id expectedRevision fresh now) (s.committed (.ok s')) := by
      show s.committed ((s.command key action id expectedRevision fresh now).map Prod.fst) = _
      rw [hcommand]
      rfl
    have hnext : StateInv (s.committed (.ok s')) := hstep ▸ apply_inv hinv _
    have hidentity : (id, key, action, expectedRevision) ∈ s'.commands.map Command.identity := by
      obtain ⟨hidentity, ⟨rfl, hreceipt⟩ | ⟨-, next, -, rfl, -⟩⟩ := Store.command_spec hinv.store hcommand
      · exact hidentity ▸ List.mem_map_of_mem hreceipt
      · exact hidentity ▸ List.mem_map_of_mem (List.mem_append_right _ (List.mem_singleton.mpr rfl))
    obtain ⟨command, hmem, hcommandid⟩ := List.mem_map.mp (run_receipt hmore hnext hidentity)
    obtain ⟨hid, hrest⟩ := Prod.mk.inj hcommandid
    obtain ⟨hkey, hrest⟩ := Prod.mk.inj hrest
    refine ⟨fun hstop => ?_, fun key' action' expectedRevision' fresh' now' =>
      command_again (hid ▸ List.mem_map_of_mem hmem) _ _ _ _ _⟩
    obtain ⟨inf, hinf, hhalted⟩ := (run_inv hmore hnext).store.stops command hmem ((Prod.mk.inj hrest).1.trans hstop)
    refine ⟨inf, hkey ▸ hinf, ?_⟩
    cases hstatus : inf.status <;> rw [hstatus] at hhalted <;> first | exact .inl rfl | exact .inr rfl | cases hhalted
  · have hreads := hinv.readers id reader hid
    unfold ReadsAt at hreads
    cases hkey : s.inferences reader.inference with
    | none =>
      rw [hkey] at hreads
      rw [Reader.over, hreads.2.2] at hover
      cases hover
    | some inf =>
      rw [hkey] at hreads
      refine ⟨inf, rfl, messages_sorted (hinv.store.inferences _ inf hkey) _, fun event hevent => ?_, ?_⟩
      · obtain ⟨message, hrun⟩ := run_eq (hinv.store.inferences _ inf hkey) hevent
        exact hrun ▸ rfl
      obtain ⟨seen, rest, hparts, -, -, hreceived | ⟨rfl, a, -, -, -, final, result, -, -, hreceived⟩⟩ := hreads.parts
      · rw [Reader.over, hreceived, run_isResult] at hover
        cases hover
      · rw [List.append_nil] at hparts
        exact ⟨final, result, hparts ▸ hreceived⟩

theorem steps_foldl (s : State) (events : List Event) : Steps Applies s events (events.foldl apply s) := by
  induction events generalizing s with
  | nil => exact .nil s
  | cons event rest ih => exact .cons rfl (ih _)

/-- An inference whose one call says a word, while a client pages it. -/
def said : List Event :=
  [.create 0 ⟨"Say a word.", "", none, ""⟩ none false 0, .claim 0 7 1, .persistCall ⟨0, 1, 7⟩ 3 "Say a word." "" true 2,
   .page 0 0 1, .append ⟨0, 1, 7⟩ 3
   [.message ⟨.text, "word", none, false, none, none, false, none, true⟩] 3, .look 0 500,
   .finish ⟨0, 1, 7⟩ (.empty "Say a word." "" true) false 4 4 4, .fetch 0, .look 0 500, .fetch 0]

theorem inference_lifecycle_said : ∃ reader inf, (said.foldl apply start).readers 0 = some reader ∧
    (said.foldl apply start).inferences reader.inference = some inf ∧ ∃ final result,
      reader.received = (inf.messages reader.attempt).filterMap CallEvent.run ++ [.result final result] := by
  have hover : ((said.foldl apply start).readers 0).any Reader.over = true := by decide +kernel
  obtain ⟨reader, hreader, hover⟩ := (Option.any_eq_true _ _).mp hover
  obtain ⟨inf, hkey, -, -, hreceived⟩ := (inference_lifecycle (steps_foldl start said)).2.2.2.2 0 reader hreader hover
  exact ⟨reader, inf, hreader, hkey, hreceived⟩

end Galaris.Llm.InferenceStore
