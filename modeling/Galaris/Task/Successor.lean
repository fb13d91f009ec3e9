import Galaris.Task.Replacement

/-! A successor waits for the stop of what it replaces.

A transaction of another writer keeps what the replacement relies on (`Row.Keeps`), and a
decision keeps what was frozen and every confirmed receipt (`State.Later`). The invariant
(`Inv`) says that a successor that is not confirmed has no lease, that the predecessor
names its successor, and that the copy of a reconciler is of the frozen state. A decision
that confirms read every frozen Task stopped (`replacement_waits`). -/
namespace Galaris.Tasks.Replacement

open Transition

/-! ### What is frozen, and what is kept -/

def Stop.frozen (stop : Stop) : Stop := {stop with cancellation := none}

def Frozen.frozen (record : Frozen) : Frozen := {record with stop := record.stop.frozen}

/-- The state as it was admitted. -/
def State.frozen (state : State) : State :=
  {state with decision := .pending, stop := state.stop.frozen, members := state.members.map (List.map Frozen.frozen)}

/-- What was admitted is the same, a decision is final, and a confirmed receipt is still stored
for the same run. -/
structure State.Later (state state' : State) : Prop where
  frozen : state'.frozen = state.frozen
  decision : state.decision ≠ .pending → state'.decision = state.decision
  receipt : state.stop.confirmed = true → state'.stop.cancellation = state.stop.cancellation
  receipts : ∀ records, state.members = some records →
    ∃ records', state'.members = some records' ∧ ∀ record ∈ records, record.stop.confirmed = true → record ∈ records'

theorem State.Later.refl (state : State) : State.Later state state :=
  ⟨rfl, fun _ => rfl, fun _ => rfl, fun records hrecords => ⟨records, hrecords, fun _ hmem _ => hmem⟩⟩

/-- What every writer but a reconciler keeps of a row. -/
structure Row.Keeps (row row' : Row) : Prop where
  id : row'.id = row.id
  source : row'.sourceTaskId = row.sourceTaskId
  successor : row.successor.isSome → row'.successor = row.successor
  replacement : row'.replacement = row.replacement
  unleased : row.replacementPending = true → row.leaseToken = none → row'.leaseToken = none

/-- What every transaction keeps of a row. -/
structure Row.Later (row row' : Row) : Prop where
  id : row'.id = row.id
  source : row'.sourceTaskId = row.sourceTaskId
  successor : row.successor.isSome → row'.successor = row.successor
  unreplaced : row.replacement = none → row'.replacement = none
  replacement : ∀ state, row.replacement = some state → ∃ state', row'.replacement = some state' ∧ state.Later state'
  unleased : row'.replacementPending = true → row.leaseToken = none → row'.leaseToken = none

theorem Row.Keeps.refl (row : Row) : Row.Keeps row row := ⟨rfl, rfl, fun _ => rfl, rfl, fun _ h => h⟩

theorem Row.Keeps.later {row row' : Row} (h : Row.Keeps row row') : Row.Later row row' where
  id := h.id
  source := h.source
  successor := h.successor
  unreplaced hnone := h.replacement.trans hnone
  replacement state hstate := ⟨state, h.replacement.trans hstate, .refl state⟩
  unleased hpending hfree := by
    refine h.unleased ?_ hfree
    rw [Row.replacementPending, ← h.replacement]
    exact hpending

theorem Row.saved_eq (row row' : Row) : ∃ revision, row.saved row' = {row' with revision := revision} := by
  unfold Row.saved
  split
  · next heq => exact ⟨row'.revision, heq ▸ rfl⟩
  · exact ⟨row.revision + 1, rfl⟩

theorem Row.Keeps.saved {row row' : Row} (h : Row.Keeps row row') : Row.Keeps row (row.saved row') := by
  obtain ⟨revision, heq⟩ := Row.saved_eq row row'
  rw [heq]
  exact ⟨h.id, h.source, h.successor, h.replacement, h.unleased⟩

/-! ### Transactions on one row -/

/-- A claim of a successor that is not confirmed takes no lease. -/
theorem command_keeps {C : Settings} {command : Command} {driver : Driver} {row row' : Row}
    (h : row.command C command driver = some row') : Row.Keeps row row' := by
  rw [Row.command] at h
  split at h
  · cases h
    exact .refl row
  · next hallowed =>
    obtain ⟨record, happly, hrow⟩ := Option.bind_eq_some_iff.mp h
    have hunleased : row.replacementPending = true → row.leaseToken = none → record.task.leaseToken = none := by
      intro hpending hfree
      have hclaims : command.claims = false := by simpa [hpending] using hallowed
      obtain hsame | hfreed := (ledger_change hclaims happly).leaseToken
      · exact hsame.trans hfree
      · exact hfreed
    rw [← Option.some.inj hrow]
    split
    · exact ⟨rfl, rfl, fun _ => rfl, rfl, hunleased⟩
    · exact Row.Keeps.saved ⟨rfl, rfl, fun _ => rfl, rfl, hunleased⟩

theorem edit_keeps (place : Place) (row : Row) : Row.Keeps row (row.saved {row with place := place}) :=
  Row.Keeps.saved ⟨rfl, rfl, fun _ => rfl, rfl, fun _ h => h⟩

/-- A Task that is not terminal can be cancelled. -/
theorem requestCancellation_isSome (C : Settings) {task : Task} (h : task.status.terminal = false) :
    (requestCancellation C task).isSome = true := by
  have hactive : ∀ status : TaskStatus, status.terminal = false → status ∈ (TRANSITIONS .cancel).sources := by
    intro status hstatus
    cases status <;> first | decide | cases hstatus
  simp [requestCancellation, Task.on, transition, hactive _ h]

theorem cancelMember_lease (C : Settings) (row : Row) : (cancelMember C row).leaseToken = row.leaseToken := by
  unfold cancelMember
  split
  · rfl
  · next hactive =>
    obtain ⟨task, htask⟩ := Option.isSome_iff_exists.mp
      (@requestCancellation_isSome C row.record.task (by simpa [Row.terminal, Row.status] using hactive))
    obtain ⟨_, _, _, hlease, _⟩ := requestCancellation_eq_some htask
    show ((requestCancellation C row.record.task).getD row.record.task).leaseToken = row.record.task.leaseToken
    rw [htask]
    exact leaseToken_congr hlease

/-- Only the predecessor of a new admission gets a successor. -/
theorem displaced_keeps (C : Settings) (request : Request) {predecessor : Row} (members : List Row) {row : Row}
    (hfree : row.id = predecessor.id → row.successor = none) :
    Row.Keeps row (displaced C request predecessor members row) := by
  have hstopped : ∀ row' : Row,
      row' = (if members.any fun member => member.id == row.id then cancelMember C row else row) →
      row'.id = row.id ∧ row'.sourceTaskId = row.sourceTaskId ∧ row'.successor = row.successor ∧
        row'.replacement = row.replacement ∧ row'.leaseToken = row.leaseToken := by
    rintro row' rfl
    split
    · refine ⟨?_, ?_, ?_, ?_, cancelMember_lease C row⟩ <;> (unfold cancelMember; split <;> rfl)
    · exact ⟨rfl, rfl, rfl, rfl, rfl⟩
  obtain ⟨hid, hsource, hsuccessor, hreplacement, hlease⟩ := hstopped _ rfl
  refine Row.Keeps.saved ?_
  split
  · next heq =>
    refine ⟨hid, hsource, fun hsome => ?_, hreplacement, fun _ hnone => hlease.trans hnone⟩
    rw [hfree heq] at hsome
    cases hsome
  · exact ⟨hid, hsource, fun _ => hsuccessor, hreplacement, fun _ hnone => hlease.trans hnone⟩

theorem displaced_successor (C : Settings) (request : Request) (predecessor : Row) (members : List Row) :
    (displaced C request predecessor members predecessor).successor = some request.draft.id := by
  unfold displaced
  dsimp only
  rw [if_pos rfl]
  obtain ⟨revision, heq⟩ := Row.saved_eq predecessor {(if members.any fun member => member.id == predecessor.id then
    cancelMember C predecessor else predecessor) with successor := some request.draft.id}
  rw [heq]

/-! ### Receipts -/

/-- A change of the receipts only. -/
theorem map_frozen {f : Frozen → Frozen} (hf : ∀ record, (f record).frozen = record.frozen) (records : List Frozen) :
    (records.map f).map Frozen.frozen = records.map Frozen.frozen := by
  rw [List.map_map]
  exact List.map_congr_left fun record _ => hf record

/-- One turn of `overlay`. -/
def kept (saved : Frozen) (records : List Frozen) : List Frozen :=
  if saved.stop.confirmed then records.map fun record =>
    if record.taskId = saved.taskId ∧ record.stop.run = saved.stop.run then
      {record with stop := {record.stop with cancellation := saved.stop.cancellation}}
    else record
  else records

theorem overlay_cons (saved : Frozen) (rest records : List Frozen) :
    overlay (saved :: rest) records = overlay rest (kept saved records) := rfl

theorem kept_frozen (saved : Frozen) (records : List Frozen) :
    (kept saved records).map Frozen.frozen = records.map Frozen.frozen := by
  unfold kept
  split
  · refine map_frozen (fun record => ?_) records
    split <;> rfl
  · rfl

theorem overlay_frozen (saved records : List Frozen) :
    (overlay saved records).map Frozen.frozen = records.map Frozen.frozen := by
  induction saved generalizing records with
  | nil => rfl
  | cons first rest ih => rw [overlay_cons, ih, kept_frozen]

theorem frozen_taskIds {records records' : List Frozen} (h : records'.map Frozen.frozen = records.map Frozen.frozen) :
    records'.map Frozen.taskId = records.map Frozen.taskId := by
  have hids := congrArg (List.map Frozen.taskId) h
  rw [List.map_map, List.map_map] at hids
  exact hids

theorem mem_of_frozen {records records' : List Frozen} (h : records'.map Frozen.frozen = records.map Frozen.frozen)
    {record : Frozen} (hmem : record ∈ records) : ∃ record' ∈ records', record'.frozen = record.frozen := by
  have hfrozen : record.frozen ∈ records'.map Frozen.frozen := h ▸ List.mem_map_of_mem hmem
  exact List.mem_map.mp hfrozen

/-- The saved records of other Tasks leave a record as it is. -/
theorem mem_overlay_of_not_mem {saved records : List Frozen} {record : Frozen} (hmem : record ∈ records)
    (hother : record.taskId ∉ saved.map Frozen.taskId) : record ∈ overlay saved records := by
  induction saved generalizing records with
  | nil => exact hmem
  | cons first rest ih =>
    have hfirst := List.ne_of_not_mem_cons hother
    rw [overlay_cons]
    refine ih ?_ (List.not_mem_of_not_mem_cons hother)
    unfold kept
    split
    · exact List.mem_map.mpr ⟨record, hmem, if_neg fun h => hfirst h.1⟩
    · exact hmem

/-- A record that is the saved one but for the receipt becomes the saved one. -/
theorem mem_kept {saved record : Frozen} {records : List Frozen} (hconfirmed : saved.stop.confirmed = true)
    (hmem : record ∈ records) (hfrozen : record.frozen = saved.frozen) : saved ∈ kept saved records := by
  obtain ⟨taskId, agentId, parentId, leaseToken, run, completed, cancellation⟩ := record
  obtain ⟨taskId', agentId', parentId', leaseToken', run', completed', cancellation'⟩ := saved
  simp only [Frozen.frozen, Stop.frozen, Frozen.mk.injEq, Stop.mk.injEq, and_true] at hfrozen
  obtain ⟨rfl, rfl, rfl, rfl, rfl, rfl⟩ := hfrozen
  rw [kept, if_pos hconfirmed]
  exact List.mem_map.mpr ⟨_, hmem, if_pos ⟨rfl, rfl⟩⟩

/-- Every confirmed receipt that was saved is kept. -/
theorem mem_overlay {saved records : List Frozen} (hnodup : (saved.map Frozen.taskId).Nodup) {record : Frozen}
    (hsaved : record ∈ saved) (hconfirmed : record.stop.confirmed = true)
    (hmem : ∃ mine ∈ records, mine.frozen = record.frozen) : record ∈ overlay saved records := by
  induction saved generalizing records with
  | nil => cases hsaved
  | cons first rest ih =>
    obtain ⟨hnew, hrest⟩ := List.nodup_cons.mp hnodup
    obtain ⟨mine, hmine, hfrozen⟩ := hmem
    rw [overlay_cons]
    obtain rfl | hlater := List.mem_cons.mp hsaved
    · exact mem_overlay_of_not_mem (mem_kept hconfirmed hmine hfrozen) hnew
    · obtain ⟨mine', hmine', hsame⟩ := mem_of_frozen (kept_frozen first records) hmine
      exact ih hrest hlater ⟨mine', hmine', hsame.trans hfrozen⟩

theorem Stop.receive_frozen (current mine : Stop) : (current.receive mine).frozen = current.frozen := by
  unfold Stop.receive
  split <;> rfl

theorem Stop.receive_confirmed {current : Stop} (mine : Stop) (h : current.confirmed = true) :
    current.receive mine = current := by
  rw [Stop.receive, if_neg]
  simp [h]

/-- The copy of a worker is of what was admitted, whatever it receives. -/
theorem receive_frozen {receipt : Option Receipt} {pass pass' : Pass} (h : receive receipt pass = some pass') :
    pass'.successorId = pass.successorId ∧ pass'.sourceId = pass.sourceId ∧ pass'.state.frozen = pass.state.frozen := by
  obtain ⟨taskId, _, hpass⟩ := Option.bind_eq_some_iff.mp h
  cases hpass
  refine ⟨rfl, rfl, ?_⟩
  dsimp only
  split
  · next records hrecords =>
    simp only [State.frozen, hrecords, Option.map_some]
    rw [map_frozen fun record => ?_]
    split <;> rfl
  · next hnone => rfl

theorem ask_frozen {store : Store} {taskId : Nat} {pass pass' : Pass} (h : ask store taskId pass = some pass') :
    pass'.successorId = pass.successorId ∧ pass'.sourceId = pass.sourceId ∧ pass'.state = pass.state := by
  obtain ⟨records, _, h⟩ := Option.bind_eq_some_iff.mp h
  obtain ⟨record, _, h⟩ := Option.bind_eq_some_iff.mp h
  dsimp only at h
  split at h
  · cases h
  split at h
  · cases h
    exact ⟨rfl, rfl, rfl⟩
  · cases h
    exact ⟨rfl, rfl, rfl⟩

/-- The copy and the state have the same members, but for the receipts. -/
theorem frozen_members {state state' : State} (h : state'.frozen = state.frozen) :
    state'.members.map (List.map Frozen.frozen) = state.members.map (List.map Frozen.frozen) :=
  congrArg State.members h

/-- A decision keeps what was admitted, and the confirmed receipts. -/
theorem decision_later {owners : List Owner} {store : Store} {predecessor successor : Row}
    {current : State} {pass : Pass}
    (hsame : pass.state.frozen = current.frozen) (hpending : current.decision = .pending)
    (hnodup : ∀ records, current.members = some records → (records.map Frozen.taskId).Nodup) :
    current.Later (pass.decision owners store predecessor successor current) := by
  have hmembers := frozen_members hsame
  unfold Pass.decision
  split
  · next records hrecords =>
    rw [hrecords, Option.map_some] at hmembers
    obtain ⟨saved, hsaved, hfrozen⟩ := Option.map_eq_some_iff.mp hmembers.symm
    refine ⟨?_, fun h => absurd hpending h, fun _ => rfl, fun saved' hsaved' => ?_⟩
    · simp only [decideTree, State.frozen, hsaved, Option.getD_some, Option.map_some]
      rw [overlay_frozen, hfrozen]
    · refine ⟨overlay saved records, by simp only [decideTree, hsaved, Option.getD_some],
        fun record hmem hconfirmed => ?_⟩
      obtain rfl : saved = saved' := Option.some.inj (hsaved.symm.trans hsaved')
      exact mem_overlay (hnodup saved hsaved) hmem hconfirmed (mem_of_frozen hfrozen.symm hmem)
  · next hnone =>
    rw [hnone, Option.map_none] at hmembers
    have hcurrent : current.members = none := Option.map_eq_none_iff.mp hmembers.symm
    unfold decideAlone
    split
    · exact ⟨rfl, fun h => absurd hpending h, fun _ => rfl, fun records hrecords => ⟨records, hrecords, fun _ h _ => h⟩⟩
    · have hlater : current.Later {current with stop := current.stop.receive pass.state.stop} := by
        refine ⟨?_, fun _ => rfl, fun h => ?_, fun records hrecords => ?_⟩
        · simp only [State.frozen, Stop.receive_frozen]
        · show (current.stop.receive pass.state.stop).cancellation = _
          rw [Stop.receive_confirmed pass.state.stop h]
        · rw [hcurrent] at hrecords
          cases hrecords
      dsimp only
      split
      · exact ⟨hlater.frozen, fun h => absurd hpending h, hlater.receipt, hlater.receipts⟩
      · exact hlater

/-! ### Transactions on the store -/

theorem Store.get_eq_some {store : Store} {id : Nat} {row : Row} (h : store.get id = some row) :
    row ∈ store.rows ∧ row.id = id := by
  have hfound := List.find?_some h
  simp only [Bool.and_eq_true, beq_iff_eq] at hfound
  exact ⟨List.mem_of_find?_eq_some h, hfound.1⟩

theorem Store.fresh_iff {store : Store} {id : Nat} : store.fresh id = true ↔ ∀ row ∈ store.rows, row.id ≠ id := by
  simp [Store.fresh]

theorem Row.new_iff {row : Row} :
    row.new = true ↔ row.leaseToken = none ∧ row.successor = none ∧ row.replacement = none := by
  simp [Row.new, and_assoc]

/-- The rows that a transaction adds. -/
inductive Added (store : Store) (change : Row → Row) : List Row → Prop
  | none : Added store change []
  | new (row : Row) : store.fresh row.id = true → row.new = true → Added store change [row]
  | successor (request : Request) (predecessor : Row) (members : List Row) : store.fresh request.draft.id = true →
    request.draft.new = true → predecessor ∈ store.rows → (change predecessor).successor = some request.draft.id →
    (members.map Row.id).Nodup → Added store change [admitted request predecessor members]

/-- What a transaction does to the store, given what it does to a row that was there. -/
structure Evolves (change : Row → Row → Prop) (store store' : Store) : Prop where
  rows : ∃ f added, store'.rows = store.rows.map f ++ added ∧
    (∀ row ∈ store.rows, change row (f row)) ∧ Added store f added
  passes : ∀ worker pass, store'.passes worker = some pass →
    (∃ before, store.passes worker = some before ∧ pass.successorId = before.successorId ∧
      pass.sourceId = before.sourceId ∧ pass.state.frozen = before.state.frozen) ∨
    ∃ successorId, look store successorId = some pass

theorem Evolves.mono {change change' : Row → Row → Prop} {store store' : Store} (h : Evolves change store store')
    (himp : ∀ row row', change row row' → change' row row') : Evolves change' store store' := by
  obtain ⟨f, added, hrows, hchange, hadded⟩ := h.rows
  exact ⟨⟨f, added, hrows, fun row hmem => himp _ _ (hchange row hmem), hadded⟩, h.passes⟩

/-- A transaction on the rows leaves the passes. -/
theorem Evolves.of_rows {change : Row → Row → Prop} {store : Store} {f : Row → Row} {added : List Row}
    (hchange : ∀ row ∈ store.rows, change row (f row)) (hadded : Added store f added) :
    Evolves change store {store with rows := store.rows.map f ++ added} :=
  ⟨⟨f, added, rfl, hchange, hadded⟩, fun _ pass hpass => .inl ⟨pass, hpass, rfl, rfl, rfl⟩⟩

theorem Evolves.refl (store : Store) : Evolves Row.Keeps store store := by
  have h := @Evolves.of_rows Row.Keeps store id [] (fun row _ => .refl row) .none
  rw [List.map_id, List.append_nil] at h
  exact h

/-- A transaction on a row that keeps what a replacement relies on. -/
theorem onRow_evolves {id : Nat} {f : Row → Option Row} {store store' : Store}
    (hnodup : (store.rows.map Row.id).Nodup) (hkeeps : ∀ row row', f row = some row' → Row.Keeps row row')
    (h : store.onRow id f = some store') : Evolves Row.Keeps store store' := by
  obtain ⟨row, hfound, h⟩ := Option.bind_eq_some_iff.mp h
  obtain ⟨row', hrow, h⟩ := Option.bind_eq_some_iff.mp h
  cases h
  have hid : row.id = id := by simpa using List.find?_some hfound
  have hevolves := @Evolves.of_rows Row.Keeps store
    (fun other => if other.id = id then row' else other) [] (fun other hmem => ?_) .none
  · rw [List.append_nil] at hevolves
    exact hevolves
  · split
    · next hother =>
      have hsame : other = row :=
        List.inj_on_of_nodup_map hnodup hmem (List.mem_of_find?_eq_some hfound) (hother.trans hid.symm)
      exact hkeeps _ _ (hsame ▸ hrow)
    · exact .refl other

/-- The rows that a new admission stops. -/
def Store.stopped (store : Store) (request : Request) (predecessor : Row) : List Row :=
  if request.coordinateDescendants then store.members predecessor.id else [predecessor]

theorem resolved_eq {owners : List Owner} {store : Store} {request : Request} {predecessor : Row} {members : List Row}
    (h : resolved owners store request predecessor = some members) : members = store.stopped request predecessor := by
  unfold resolved at h
  unfold Store.stopped
  split at h
  · next hcoordinate =>
    rw [if_pos hcoordinate]
    unfold stage at h
    dsimp only at h
    split at h
    · cases h
    split at h
    · cases h
    · exact (Option.some.inj h).symm
  · next hcoordinate =>
    rw [if_neg hcoordinate]
    split at h
    · cases h
    · exact (Option.some.inj h).symm

/-- An admission is there already, or it is new. -/
theorem prepare_cases {C : Settings} {owners : List Owner} {request : Request} {store store' : Store}
    (h : prepareReplacement C owners request store = some store') :
    store' = store ∨ ∃ predecessor, store.get request.predecessorId = some predecessor ∧ predecessor.successor = none ∧
      store' =
        {store with rows := store.rows.map (displaced C request predecessor (store.stopped request predecessor)) ++
        [admitted request predecessor (store.stopped request predecessor)]} := by
  obtain ⟨predecessor, hget, h⟩ := Option.bind_eq_some_iff.mp h
  split at h
  · cases h
  split at h
  · split at h
    · exact .inl (Option.some.inj h).symm
    · cases h
  · next hfree =>
    split at h
    · cases h
    obtain ⟨members, hmembers, h⟩ := Option.bind_eq_some_iff.mp h
    rw [resolved_eq hmembers] at h
    exact .inr ⟨predecessor, hget, hfree, (Option.some.inj h).symm⟩

theorem prepare_evolves {C : Settings} {owners : List Owner} {request : Request} {store store' : Store}
    (hnodup : (store.rows.map Row.id).Nodup) (hfresh : store.fresh request.draft.id = true)
    (hnew : request.draft.new = true) (h : prepareReplacement C owners request store = some store') :
    Evolves Row.Keeps store store' := by
  obtain rfl | ⟨predecessor, hget, hfree, rfl⟩ := prepare_cases h
  · exact .refl _
  obtain ⟨hmem, _⟩ := Store.get_eq_some hget
  refine Evolves.of_rows (fun row hrow => displaced_keeps C request _ fun hid => ?_)
    (.successor request predecessor _ hfresh hnew hmem ?_ ?_)
  · rw [List.inj_on_of_nodup_map hnodup hrow hmem hid]
    exact hfree
  · exact displaced_successor C request predecessor _
  · unfold Store.stopped
    split
    · exact hnodup.sublist (List.Sublist.map _ List.filter_sublist)
    · exact List.nodup_singleton _

/-! ### The invariant -/

/-- What holds of the store in every run. -/
structure Inv (store : Store) : Prop where
  ids : (store.rows.map Row.id).Nodup
  named : ∀ row ∈ store.rows, row.replacement.isSome = true →
    ∃ predecessor ∈ store.rows, row.sourceTaskId = some predecessor.id ∧ predecessor.successor = some row.id
  unleased : ∀ row ∈ store.rows, row.replacementPending = true → row.leaseToken = none
  members : ∀ row ∈ store.rows, ∀ state, row.replacement = some state → ∀ records, state.members = some records →
    (records.map Frozen.taskId).Nodup
  passes : ∀ worker pass, store.passes worker = some pass → ∃ row ∈ store.rows, row.id = pass.successorId ∧
    row.sourceTaskId = some pass.sourceId ∧ ∃ state, row.replacement = some state ∧ pass.state.frozen = state.frozen

theorem Inv.row_ext {store : Store} (hinv : Inv store) {row row' : Row} (hrow : row ∈ store.rows)
    (hrow' : row' ∈ store.rows)
    (hid : row.id = row'.id) : row = row' := List.inj_on_of_nodup_map hinv.ids hrow hrow' hid

theorem look_eq_some {store : Store} {successorId : Nat} {pass : Pass} (h : look store successorId = some pass) :
    ∃ row ∈ store.rows, row.id = pass.successorId ∧ row.sourceTaskId = some pass.sourceId ∧
      row.replacement = some pass.state := by
  obtain ⟨row, hget, h⟩ := Option.bind_eq_some_iff.mp h
  obtain ⟨sourceId, hsource, h⟩ := Option.bind_eq_some_iff.mp h
  obtain ⟨state, hstate, h⟩ := Option.bind_eq_some_iff.mp h
  obtain ⟨hmem, hid⟩ := Store.get_eq_some hget
  split at h
  · cases h
    exact ⟨row, hmem, hid, hsource, hstate⟩
  · obtain ⟨predecessor, _, h⟩ := Option.bind_eq_some_iff.mp h
    cases h
    exact ⟨row, hmem, hid, hsource, hstate⟩

/-- A state that is not confirmed was not confirmed before. -/
theorem Row.Later.pending {row row' : Row} (h : Row.Later row row') (hpending : row'.replacementPending = true) :
    row.replacementPending = true := by
  cases hreplacement : row.replacement with
  | none =>
    rw [Row.replacementPending, h.unreplaced hreplacement] at hpending
    cases hpending
  | some state =>
    obtain ⟨state', hstate', hlater⟩ := h.replacement state hreplacement
    simp only [Row.replacementPending, hstate', Option.any_some, bne_iff_ne, ne_eq] at hpending
    simp only [Row.replacementPending, hreplacement, Option.any_some, bne_iff_ne, ne_eq]
    intro hconfirmed
    exact hpending ((hlater.decision (by rw [hconfirmed]; decide)).trans hconfirmed)

theorem frozen_taskIds_of_state {state state' : State} (h : state'.frozen = state.frozen) {records' : List Frozen}
    (hrecords' : state'.members = some records') :
    ∃ records, state.members = some records ∧ records'.map Frozen.frozen = records.map Frozen.frozen := by
  have hmembers := frozen_members h
  rw [hrecords', Option.map_some] at hmembers
  obtain ⟨records, hrecords, hfrozen⟩ := Option.map_eq_some_iff.mp hmembers.symm
  exact ⟨records, hrecords, hfrozen.symm⟩

theorem snapshots_frozen (members : List Row) :
    (members.map Row.snapshot).map Frozen.frozen = members.map Row.snapshot := by
  rw [List.map_map]
  exact List.map_congr_left fun _ _ => rfl

theorem snapshots_taskIds (members : List Row) :
    (members.map Row.snapshot).map Frozen.taskId = members.map Row.id := by
  rw [List.map_map]
  exact List.map_congr_left fun _ _ => rfl

theorem Inv.evolve {store store' : Store} (hinv : Inv store) (h : Evolves Row.Later store store') : Inv store' := by
  obtain ⟨f, added, hrows, hlater, hadded⟩ := h.rows
  have hids : (store.rows.map f).map Row.id = store.rows.map Row.id := by
    rw [List.map_map]
    exact List.map_congr_left fun row hmem => (hlater row hmem).id
  -- a row of the new store was there before, or is one of those added
  have hmem : ∀ row' ∈ store'.rows, (∃ row ∈ store.rows, f row = row') ∨ row' ∈ added := by
    intro row' hrow'
    rw [hrows] at hrow'
    exact (List.mem_append.mp hrow').imp_left List.mem_map.mp
  have hold : ∀ row ∈ store.rows, f row ∈ store'.rows := fun row hrow =>
    hrows ▸ List.mem_append_left _ (List.mem_map_of_mem hrow)
  refine ⟨?_, ?_, ?_, ?_, ?_⟩
  · rw [hrows, List.map_append, hids]
    cases hadded with
    | none => simpa using hinv.ids
    | new row hfresh _ =>
      refine List.nodup_append.mpr ⟨hinv.ids, List.nodup_singleton _, fun id hid id' hid' => ?_⟩
      obtain ⟨before, hbefore, rfl⟩ := List.mem_map.mp hid
      rw [List.mem_singleton.mp hid']
      exact Store.fresh_iff.mp hfresh before hbefore
    | successor request predecessor members hfresh _ _ _ _ =>
      refine List.nodup_append.mpr ⟨hinv.ids, List.nodup_singleton _, fun id hid id' hid' => ?_⟩
      obtain ⟨before, hbefore, rfl⟩ := List.mem_map.mp hid
      rw [List.mem_singleton.mp hid']
      exact Store.fresh_iff.mp hfresh before hbefore
  · intro row' hrow' hreplacement'
    obtain ⟨row, hrow, rfl⟩ | hnew := hmem row' hrow'
    · have hkept := hlater row hrow
      have hreplacement : row.replacement.isSome = true := by
        cases hcase : row.replacement with
        | none =>
          rw [hkept.unreplaced hcase] at hreplacement'
          cases hreplacement'
        | some _ => rfl
      obtain ⟨predecessor, hpredecessor, hsource, hsuccessor⟩ := hinv.named row hrow hreplacement
      have hkept' := hlater predecessor hpredecessor
      refine ⟨f predecessor, hold _ hpredecessor, ?_, ?_⟩
      · rw [hkept.source, hkept'.id]
        exact hsource
      · rw [hkept'.successor (by rw [hsuccessor]; rfl), hkept.id]
        exact hsuccessor
    · cases hadded with
      | none => cases hnew
      | new row _ hplain =>
        rw [List.mem_singleton.mp hnew, (Row.new_iff.mp hplain).2.2] at hreplacement'
        cases hreplacement'
      | successor request predecessor members _ _ hpredecessor hnamed _ =>
        rw [List.mem_singleton.mp hnew]
        refine ⟨f predecessor, hold _ hpredecessor, ?_, hnamed⟩
        rw [(hlater predecessor hpredecessor).id]
        rfl
  · intro row' hrow' hpending'
    obtain ⟨row, hrow, rfl⟩ | hnew := hmem row' hrow'
    · have hkept := hlater row hrow
      exact hkept.unleased hpending' (hinv.unleased row hrow (hkept.pending hpending'))
    · cases hadded with
      | none => cases hnew
      | new row _ hplain =>
        rw [List.mem_singleton.mp hnew]
        exact (Row.new_iff.mp hplain).1
      | successor request predecessor members _ hplain _ _ _ =>
        rw [List.mem_singleton.mp hnew]
        have hlease : (admitted request predecessor members).leaseToken = request.draft.leaseToken := by
          show (request.draft.record.task.suspend .replacement).leaseToken = _
          rw [Task.suspend_eq]
          rfl
        exact hlease.trans (Row.new_iff.mp hplain).1
  · intro row' hrow' state' hstate' records' hrecords'
    obtain ⟨row, hrow, rfl⟩ | hnew := hmem row' hrow'
    · have hkept := hlater row hrow
      cases hcase : row.replacement with
      | none =>
        rw [hkept.unreplaced hcase] at hstate'
        cases hstate'
      | some state =>
        obtain ⟨later, hsome, hlater⟩ := hkept.replacement state hcase
        obtain rfl : later = state' := Option.some.inj (hsome.symm.trans hstate')
        obtain ⟨records, hrecords, hfrozen⟩ := frozen_taskIds_of_state hlater.frozen hrecords'
        rw [frozen_taskIds hfrozen]
        exact hinv.members row hrow state hcase records hrecords
    · cases hadded with
      | none => cases hnew
      | new row _ hplain =>
        rw [List.mem_singleton.mp hnew, (Row.new_iff.mp hplain).2.2] at hstate'
        cases hstate'
      | successor request predecessor members _ _ _ _ hnodup =>
        rw [List.mem_singleton.mp hnew] at hstate'
        cases hstate'
        dsimp only at hrecords'
        split at hrecords'
        · cases hrecords'
          rw [snapshots_taskIds]
          exact hnodup
        · cases hrecords'
  · -- the copy of a worker is of a row that keeps what was admitted
    have hcopy : ∀ pass : Pass, (∃ row ∈ store.rows, row.id = pass.successorId ∧ row.sourceTaskId = some pass.sourceId ∧
        ∃ state, row.replacement = some state ∧ pass.state.frozen = state.frozen) →
        ∃ row ∈ store'.rows, row.id = pass.successorId ∧ row.sourceTaskId = some pass.sourceId ∧
          ∃ state, row.replacement = some state ∧ pass.state.frozen = state.frozen := by
      rintro pass ⟨row, hrow, hid, hsource, state, hstate, hfrozen⟩
      have hkept := hlater row hrow
      obtain ⟨state', hstate', hlater'⟩ := hkept.replacement state hstate
      exact ⟨f row, hold row hrow, hkept.id.trans hid, hkept.source.trans hsource, state', hstate',
        hfrozen.trans hlater'.frozen.symm⟩
    intro worker pass hpass
    obtain ⟨before, hbefore, hsuccessor, hsource, hfrozen⟩ | ⟨successorId, hlook⟩ := h.passes worker pass hpass
    · rw [hsuccessor, hsource, hfrozen]
      exact hcopy before (hinv.passes worker before hbefore)
    · obtain ⟨row, hrow, hid, hsource, hstate⟩ := look_eq_some hlook
      exact hcopy pass ⟨row, hrow, hid, hsource, pass.state, hstate, rfl⟩

/-! ### What a transaction can do -/

theorem Evolves.setPass {change : Row → Row → Prop} {store store' : Store} (h : Evolves change store store')
    (worker : Nat) (pass : Option Pass)
    (hpass : ∀ after, pass = some after →
      (∃ before, store.passes worker = some before ∧ after.successorId = before.successorId ∧
        after.sourceId = before.sourceId ∧ after.state.frozen = before.state.frozen) ∨
      ∃ successorId, look store successorId = some after) :
    Evolves change store (store'.setPass worker pass) := by
  refine ⟨h.rows, fun other after hafter => ?_⟩
  change Function.update store'.passes worker pass other = some after at hafter
  by_cases hother : other = worker
  · rw [hother, Function.update_self] at hafter
    rw [hother]
    exact hpass after hafter
  · rw [Function.update_of_ne hother] at hafter
    exact h.passes other after hafter

/-- A pass decides on its successor, from what it reads then. -/
structure Settles (owners : List Owner) (pass : Pass) (predecessor successor : Row) (current : State)
    (store store' : Store) : Prop where
  source : store.get pass.sourceId = some predecessor
  found : store.get pass.successorId = some successor
  state : successor.replacement = some current
  pending : current.decision = .pending
  rows : store'.rows = store.rows.map fun row =>
    if row.id = successor.id then settled (pass.decision owners store predecessor successor current) row else row

theorem commit_cases (owners : List Owner) (pass : Pass) (store : Store) :
    commit owners pass store = store ∨ ∃ predecessor successor current,
      Settles owners pass predecessor successor current store (commit owners pass store) ∧
        (commit owners pass store).passes = store.passes := by
  unfold commit
  split
  · next predecessor successor hsource hfound =>
    split
    · next current hcurrent =>
      split
      · exact .inl rfl
      · next hopen =>
        simp only [Bool.or_eq_true, bne_iff_ne, ne_eq, not_or, not_not] at hopen
        exact .inr ⟨predecessor, successor, current, ⟨hsource, hfound, hcurrent, hopen.2, rfl⟩, rfl⟩
    · exact .inl rfl
  · exact .inl rfl

/-- A transaction is that of another writer, or the decision of a pass. -/
theorem step_cases {C : Settings} {store store' : Store} {event : StoreEvent} (hinv : Inv store)
    (h : store.apply C event = some store') :
    Evolves Row.Keeps store store' ∨ ∃ worker owners pass predecessor successor current,
      event = .commit worker owners ∧ store.passes worker = some pass ∧
        Settles owners pass predecessor successor current store store' ∧
        store'.passes = Function.update store.passes worker none := by
  cases event with
  | insert row =>
    rw [Store.apply] at h
    split at h
    · next hplain =>
      rw [Bool.and_eq_true] at hplain
      cases h
      have hevolves := @Evolves.of_rows Row.Keeps store id [row] (fun row _ => .refl row)
        (.new row hplain.1 hplain.2)
      rw [List.map_id] at hevolves
      exact .inl hevolves
    · cases h
  | prepare request owners =>
    rw [Store.apply] at h
    split at h
    · next hplain =>
      rw [Bool.and_eq_true] at hplain
      exact .inl (prepare_evolves hinv.ids hplain.1 hplain.2 h)
    · cases h
  | command id command driver => exact .inl (onRow_evolves hinv.ids (fun _ _ => command_keeps) h)
  | edit id place =>
    refine .inl (onRow_evolves hinv.ids (fun row row' hrow => ?_) h)
    cases hrow
    exact edit_keeps place row
  | look worker successorId =>
    obtain ⟨pass, hlook, h⟩ := Option.bind_eq_some_iff.mp h
    cases h
    refine .inl ((Evolves.refl store).setPass worker _ fun after hafter => ?_)
    cases hafter
    exact .inr ⟨successorId, hlook⟩
  | ask worker taskId =>
    obtain ⟨pass, hpass, h⟩ := Option.bind_eq_some_iff.mp h
    obtain ⟨pass', hask, h⟩ := Option.bind_eq_some_iff.mp h
    cases h
    refine .inl ((Evolves.refl store).setPass worker _ fun after hafter => ?_)
    cases hafter
    obtain ⟨hsuccessor, hsource, hstate⟩ := ask_frozen hask
    exact .inl ⟨pass, hpass, hsuccessor, hsource, congrArg State.frozen hstate⟩
  | receive worker receipt =>
    obtain ⟨pass, hpass, h⟩ := Option.bind_eq_some_iff.mp h
    obtain ⟨pass', hreceive, h⟩ := Option.bind_eq_some_iff.mp h
    cases h
    refine .inl ((Evolves.refl store).setPass worker _ fun after hafter => ?_)
    cases hafter
    exact .inl ⟨pass, hpass, receive_frozen hreceive⟩
  | commit worker owners =>
    obtain ⟨pass, hpass, h⟩ := Option.bind_eq_some_iff.mp h
    split at h
    · cases h
    cases h
    obtain hnothing | ⟨predecessor, successor, current, hsettles, hpasses⟩ := commit_cases owners pass store
    · rw [hnothing]
      exact .inl ((Evolves.refl store).setPass worker none fun after hafter => by cases hafter)
    · refine .inr ⟨worker, owners, pass, predecessor, successor, current, rfl, hpass, ?_, ?_⟩
      · exact ⟨hsettles.source, hsettles.found, hsettles.state, hsettles.pending, hsettles.rows⟩
      · rw [Store.setPass, hpasses]
  | crash worker =>
    cases h
    exact .inl ((Evolves.refl store).setPass worker none fun after hafter => by cases hafter)

theorem settled_later {state current : State} {row : Row} (hcurrent : row.replacement = some current)
    (hlater : current.Later state) : Row.Later row (settled state row) := by
  obtain ⟨revision, heq⟩ := Row.saved_eq row {row with
    replacement := some state
    record := if state.decision = .confirmed then {row.record with task := row.record.task.release .replacement}
      else row.record}
  rw [settled, heq]
  refine ⟨rfl, rfl, fun _ => rfl, fun hnone => ?_, fun before hbefore => ?_, fun _ hfree => ?_⟩
  · rw [hcurrent] at hnone
    cases hnone
  · obtain rfl : current = before := Option.some.inj (hcurrent.symm.trans hbefore)
    exact ⟨state, rfl, hlater⟩
  · rw [← hfree]
    unfold Row.leaseToken
    dsimp only
    split <;> rfl

theorem Settles.later {owners : List Owner} {pass : Pass} {predecessor successor : Row} {current : State}
    {store store' : Store} {worker : Nat} (hinv : Inv store) (hpass : store.passes worker = some pass)
    (h : Settles owners pass predecessor successor current store store') :
    current.Later (pass.decision owners store predecessor successor current) := by
  obtain ⟨hmem, hid⟩ := Store.get_eq_some h.found
  obtain ⟨row, hrow, hrowid, _, state, hstate, hfrozen⟩ := hinv.passes worker pass hpass
  obtain rfl := hinv.row_ext hrow hmem (hrowid.trans hid.symm)
  obtain rfl : state = current := Option.some.inj (hstate.symm.trans h.state)
  exact decision_later hfrozen h.pending (hinv.members row hrow state hstate)

theorem step_evolves {C : Settings} {store store' : Store} {event : StoreEvent} (hinv : Inv store)
    (h : store.apply C event = some store') : Evolves Row.Later store store' := by
  obtain hkeeps | ⟨worker, owners, pass, predecessor, successor, current, _, hpass, hsettles,
    hpasses⟩ := step_cases hinv h
  · exact hkeeps.mono fun _ _ => Row.Keeps.later
  · obtain ⟨hmem, _⟩ := Store.get_eq_some hsettles.found
    refine ⟨⟨_, [], by rw [hsettles.rows, List.append_nil], fun row hrow => ?_, .none⟩, fun other after hafter => ?_⟩
    · split
      · next hid =>
        rw [hinv.row_ext hrow hmem hid]
        exact settled_later hsettles.state (hsettles.later hinv hpass)
      · exact (Row.Keeps.refl row).later
    · by_cases hother : other = worker
      · rw [hpasses, hother, Function.update_self] at hafter
        cases hafter
      · rw [hpasses, Function.update_of_ne hother] at hafter
        exact .inl ⟨after, hafter, rfl, rfl, rfl⟩

theorem Inv.step {C : Settings} {store store' : Store} {event : StoreEvent} (hinv : Inv store)
    (h : store.apply C event = some store') : Inv store' := hinv.evolve (step_evolves hinv h)

/-! ### Decisions that confirm -/

/-- The successor is confirmed by this transaction. -/
def Confirms (id : Nat) (state : State) (before after : Store) : Prop :=
  (∃ row ∈ before.rows, row.id = id ∧ row.replacementPending = true) ∧
    ∃ row ∈ after.rows, row.id = id ∧ row.replacement = some state ∧ state.decision = .confirmed

/-- The stops that a state has frozen, with their Tasks. -/
def State.stops (state : State) (sourceId : Nat) : List (Nat × Stop) :=
  match state.members with
  | some records => records.map fun record => (record.taskId, record.stop)
  | none => [(sourceId, state.stop)]

/-- What the transaction that confirms reads: the rows of the tree are the frozen ones, where there
is a tree, and every frozen Task is stopped by the receipts that are stored. -/
structure Seen (store : Store) (state : State) (sourceId : Nat) : Prop where
  tree : ∀ records, state.members = some records →
    ∀ id, (∃ row ∈ store.members sourceId, row.id = id) ↔ id ∈ records.map Frozen.taskId
  stopped : ∀ id stop, (id, stop) ∈ state.stops sourceId → ∃ row ∈ store.rows, row.id = id ∧
    predecessorStopped row stop = true

theorem stable_tree {rows : List Row} {records : List Frozen} (h : stable rows records = true) (id : Nat) :
    (∃ row ∈ rows, row.id = id) ↔ id ∈ records.map Frozen.taskId := by
  simp only [stable, Bool.and_eq_true, List.all_eq_true, List.any_eq_true, beq_iff_eq] at h
  obtain ⟨hrows, hrecords⟩ := h
  constructor
  · rintro ⟨row, hrow, rfl⟩
    obtain ⟨record, hrecord, hid⟩ := hrows row hrow
    exact List.mem_map.mpr ⟨record, hrecord, hid⟩
  · intro hmem
    obtain ⟨record, hrecord, rfl⟩ := List.mem_map.mp hmem
    obtain ⟨row, hrow, hrest⟩ := hrecords record hrecord
    exact ⟨row, hrow, hrest.1.1.1.1.1.1⟩

/-- The tree is what the links lead to from its root. -/
theorem mem_members {store : Store} {root : Nat} {row : Row} :
    row ∈ store.members root ↔ row ∈ store.rows ∧ Search.Way store.links root row.id := by
  rw [Store.members, List.mem_filter, Search.search_iff]

theorem mem_of_mem_members {store : Store} {root : Nat} {row : Row} (h : row ∈ store.members root) : row ∈ store.rows :=
  (mem_members.mp h).1

/-- A decision that confirms has seen the stop. -/
theorem decision_seen {owners : List Owner} {store : Store} {predecessor successor : Row}
    {current : State} {pass : Pass}
    (hsource : store.get pass.sourceId = some predecessor) (hpending : current.decision = .pending)
    (hsame : pass.state.frozen = current.frozen)
    (hconfirmed : (pass.decision owners store predecessor successor current).decision = .confirmed) :
    Seen store (pass.decision owners store predecessor successor current) pass.sourceId := by
  obtain ⟨hmem, hid⟩ := Store.get_eq_some hsource
  cases hrecords : pass.state.members with
  | some records =>
    have hdecision : pass.decision owners store predecessor successor current =
        decideTree owners store predecessor successor current records := by rw [Pass.decision, hrecords]
    rw [hdecision] at hconfirmed ⊢
    unfold decideTree at hconfirmed ⊢
    rw [hid] at hconfirmed ⊢
    dsimp only at hconfirmed ⊢
    split at hconfirmed
    · cases hconfirmed
    split at hconfirmed
    · next hunchanged hstopped =>
      simp only [Bool.not_eq_true, Bool.not_eq_false', Bool.and_eq_true] at hunchanged hstopped
      refine ⟨fun records' hrecords' id => ?_, fun id stop hstop => ?_⟩
      · cases hrecords'
        exact stable_tree hunchanged.2 id
      · obtain ⟨record, hrecord, hpair⟩ := List.mem_map.mp hstop
        cases hpair
        obtain ⟨row, hrow, hrest⟩ := List.any_eq_true.mp (List.all_eq_true.mp hstopped.1.2 record hrecord)
        rw [Bool.and_eq_true, beq_iff_eq] at hrest
        exact ⟨row, mem_of_mem_members hrow, hrest.1, hrest.2⟩
    · rw [hpending] at hconfirmed
      cases hconfirmed
  | none =>
    have hmembers : current.members = none := by
      have hmembers := frozen_members hsame
      rw [hrecords, Option.map_none] at hmembers
      exact Option.map_eq_none_iff.mp hmembers.symm
    have hdecision : pass.decision owners store predecessor successor current =
        decideAlone owners store predecessor successor current pass := by rw [Pass.decision, hrecords]
    rw [hdecision] at hconfirmed ⊢
    unfold decideAlone at hconfirmed ⊢
    split at hconfirmed
    · cases hconfirmed
    next hmatches =>
    rw [if_neg hmatches]
    dsimp only at hconfirmed ⊢
    split at hconfirmed
    · next hstopped =>
      rw [if_pos hstopped]
      refine ⟨fun records hrecords => ?_, fun id stop hstop => ?_⟩
      · exact absurd (hmembers.symm.trans hrecords) (by simp)
      · simp only [State.stops, hmembers, List.mem_singleton, Prod.mk.injEq] at hstop
        obtain ⟨rfl, rfl⟩ := hstop
        exact ⟨predecessor, hmem, hid, hstopped⟩
    · rw [hpending] at hconfirmed
      cases hconfirmed

/-- Only a decision confirms. -/
theorem confirms_seen {C : Settings} {store store' : Store} {event : StoreEvent} {id : Nat} {state : State}
    (hinv : Inv store) (h : store.apply C event = some store') (hconfirms : Confirms id state store store') :
    ∃ row ∈ store.rows, row.id = id ∧ ∃ sourceId, row.sourceTaskId = some sourceId ∧ Seen store state sourceId := by
  have hinv' := hinv.step h
  obtain ⟨⟨row, hrow, rfl, hpending⟩, row', hrow', hid', hstate', hconfirmed⟩ := hconfirms
  obtain hkeeps | ⟨worker, owners, pass, predecessor, successor, current, _, hpass, hsettles, _⟩ := step_cases hinv h
  · -- another writer keeps the state
    obtain ⟨f, added, hrows, hkept, _⟩ := hkeeps.rows
    have hmem : f row ∈ store'.rows := hrows ▸ List.mem_append_left _ (List.mem_map_of_mem hrow)
    have hsame : row' = f row := hinv'.row_ext hrow' hmem (hid'.trans (hkept row hrow).id.symm)
    rw [hsame, (hkept row hrow).replacement] at hstate'
    simp [Row.replacementPending, hstate', hconfirmed] at hpending
  · obtain ⟨hsuccessor, hsuccessorId⟩ := Store.get_eq_some hsettles.found
    rw [hsettles.rows] at hrow'
    obtain ⟨before, hbefore, hrow'⟩ := List.mem_map.mp hrow'
    split at hrow'
    · next hid =>
      have hsame : before = successor := hinv.row_ext hbefore hsuccessor hid
      subst hsame hrow'
      have hlater := settled_later hsettles.state (hsettles.later hinv hpass)
      have hrowsame : row = before := hinv.row_ext hrow hbefore (hid'.symm.trans hlater.id)
      subst hrowsame
      obtain ⟨copied, hcopied, hcopiedId, hsource, mine, hmine, hfrozen⟩ := hinv.passes worker pass hpass
      obtain rfl := hinv.row_ext hcopied hrow (hcopiedId.trans hsuccessorId.symm)
      obtain rfl : mine = current := Option.some.inj (hmine.symm.trans hsettles.state)
      obtain ⟨revision, heq⟩ := Row.saved_eq copied {copied with
        replacement := some (pass.decision owners store predecessor copied mine)
        record := if (pass.decision owners store predecessor copied mine).decision = .confirmed then
          {copied.record with task := copied.record.task.release .replacement} else copied.record}
      rw [settled, heq] at hstate'
      cases hstate'
      exact ⟨copied, hrow, rfl, pass.sourceId, hsource,
        decision_seen hsettles.source hsettles.pending hfrozen hconfirmed⟩
    · next hother =>
      subst hrow'
      obtain rfl := hinv.row_ext hrow hbefore hid'.symm
      simp [Row.replacementPending, hstate', hconfirmed] at hpending

/-! ### The results -/

/-- No Task was replaced yet, and no reconciler is at work. -/
structure Founded (store : Store) : Prop where
  ids : (store.rows.map Row.id).Nodup
  rows : ∀ row ∈ store.rows, row.successor = none ∧ row.replacement = none
  passes : ∀ worker, store.passes worker = none

/-- A Task that was stopped at an admission, as the transaction that confirms reads it: it is
terminal and without lease, and where it had a lease or a run at the admission and is not
exempt, a confirmed receipt of that run is stored, or its attempt is finished and stopped. -/
def Ended (exempt : Row → Bool) (sourceId : Nat) (state : State) (store : Store) (member : Row) : Prop :=
  ∃ row ∈ store.rows, row.id = member.id ∧ row.terminal = true ∧ row.leaseToken = none ∧
    (member.leaseToken.isSome = true ∨ member.run.isSome = true → exempt member = false →
      ∃ stop, (member.id, stop) ∈ state.stops sourceId ∧ stop.leaseToken = member.leaseToken ∧ stop.run = member.run ∧
        (stop.receipted = true ∨ stop.attempted row = true))

/-- What a replacement promises in the runs of a store. -/
structure Waits (C : Settings) (exempt : Row → Bool) (first : Store) : Prop where
  /-- A successor that is not confirmed has no lease, so that no claim has taken it. -/
  unclaimed : ∀ events store, Runs C first events store →
    ∀ row ∈ store.rows, row.replacementPending = true → row.leaseToken = none
  stopped : ∀ events admission request owners admitted predecessor, Runs C first events admission →
    Executes (Store.apply C) admission (.prepare request owners) admitted →
    admission.get request.predecessorId = some predecessor → (∃ row ∈ admitted.rows, row.id = request.draft.id) →
    ∀ later before event after state, Runs C admitted later before → Executes (Store.apply C) before event after →
      Confirms request.draft.id state before after →
      (request.coordinateDescendants = true → ∀ id, (∃ row ∈ before.members predecessor.id, row.id = id) ↔
        ∃ row ∈ admission.members predecessor.id, row.id = id) ∧
      ∀ member ∈ admission.stopped request predecessor, Ended exempt predecessor.id state before member
  unique : ∀ events store, Runs C first events store → ∀ row ∈ store.rows, ∀ row' ∈ store.rows,
    row.replacement.isSome = true → row'.replacement.isSome = true → row.sourceTaskId = row'.sourceTaskId → row = row'
  receipts : ∀ events before event after, Runs C first events before → Executes (Store.apply C) before event after →
    ∀ row ∈ before.rows, ∀ state, row.replacement = some state →
      ∃ row' ∈ after.rows, row'.id = row.id ∧ ∃ state', row'.replacement = some state' ∧ state.Later state'

theorem Founded.inv {store : Store} (h : Founded store) : Inv store := by
  refine ⟨h.ids, fun row hrow hsome => ?_, fun row hrow hpending => ?_, fun row hrow state hstate => ?_,
    fun worker pass hpass => ?_⟩
  · rw [(h.rows row hrow).2] at hsome
    cases hsome
  · rw [Row.replacementPending, (h.rows row hrow).2] at hpending
    cases hpending
  · rw [(h.rows row hrow).2] at hstate
    cases hstate
  · rw [h.passes worker] at hpass
    cases hpass

theorem Inv.run {C : Settings} {store store' : Store} {events : List StoreEvent} (hinv : Inv store)
    (h : Runs C store events store') : Inv store' := h.invariant (fun _ _ _ hbefore hstep => hbefore.step hstep) hinv

theorem Inv.unique {store : Store} (hinv : Inv store) {row row' : Row} (hrow : row ∈ store.rows)
    (hrow' : row' ∈ store.rows)
    (hreplaced : row.replacement.isSome = true) (hreplaced' : row'.replacement.isSome = true)
    (hsource : row.sourceTaskId = row'.sourceTaskId) : row = row' := by
  obtain ⟨predecessor, hmem, hsame, hsuccessor⟩ := hinv.named row hrow hreplaced
  obtain ⟨predecessor', hmem', hsame', hsuccessor'⟩ := hinv.named row' hrow' hreplaced'
  have hid : predecessor.id = predecessor'.id := Option.some.inj (hsame.symm.trans (hsource.trans hsame'))
  obtain rfl := hinv.row_ext hmem hmem' hid
  exact hinv.row_ext hrow hrow' (Option.some.inj (hsuccessor.symm.trans hsuccessor'))

/-- A row that was there is there after a transaction, and keeps its state but for the decision and
new receipts. -/
theorem Evolves.row {store store' : Store} (h : Evolves Row.Later store store') {row : Row} (hrow : row ∈ store.rows) :
    ∃ row' ∈ store'.rows, Row.Later row row' := by
  obtain ⟨f, added, hrows, hlater, _⟩ := h.rows
  exact ⟨f row, hrows ▸ List.mem_append_left _ (List.mem_map_of_mem hrow), hlater row hrow⟩

/-- The successor of an admission has the state that was admitted. -/
def Admitted (id sourceId : Nat) (state : State) (store : Store) : Prop :=
  ∃ row ∈ store.rows, row.id = id ∧ row.sourceTaskId = some sourceId ∧
    ∃ state', row.replacement = some state' ∧ state'.frozen = state.frozen

theorem Admitted.step {C : Settings} {id sourceId : Nat} {state : State} {store store' : Store} {event : StoreEvent}
    (hinv : Inv store) (hadmitted : Admitted id sourceId state store) (h : store.apply C event = some store') :
    Admitted id sourceId state store' := by
  obtain ⟨row, hrow, hid, hsource, before, hbefore, hfrozen⟩ := hadmitted
  obtain ⟨row', hrow', hlater⟩ := (step_evolves hinv h).row hrow
  obtain ⟨after, hafter, hstate⟩ := hlater.replacement before hbefore
  exact ⟨row', hrow', hlater.id.trans hid, hlater.source.trans hsource, after, hafter, hstate.frozen.trans hfrozen⟩

theorem Admitted.run {C : Settings} {id sourceId : Nat} {state : State} {store store' : Store}
    {events : List StoreEvent}
    (hinv : Inv store) (hadmitted : Admitted id sourceId state store) (h : Runs C store events store') :
    Admitted id sourceId state store' :=
  (h.invariant (P := fun store => Inv store ∧ Admitted id sourceId state store)
    (fun _ _ _ hbefore hstep => ⟨hbefore.1.step hstep, hbefore.2.step hbefore.1 hstep⟩) ⟨hinv, hadmitted⟩).2

/-- The state that an admission stores. -/
def Request.state (request : Request) (predecessor : Row) (members : List Row) : State where
  actionKey := request.actionKey
  stop := predecessor.stop
  members := if request.coordinateDescendants then some (members.map Row.snapshot) else none

theorem predecessorStopped_iff {row : Row} {stop : Stop} :
    predecessorStopped row stop = true ↔ row.leaseToken = none ∧ row.terminal = true ∧
      (stop.completed = true ∨ (stop.leaseToken = none ∧ stop.run = none) ∨ stop.receipted = true ∨
        stop.attempted row = true) := by
  unfold predecessorStopped
  cases row.leaseToken <;> cases row.terminal <;> simp [or_assoc]

/-- Every Task that an admission stops is among the stops of its state. -/
theorem mem_stops {store : Store} {request : Request} {predecessor member : Row} {state : State}
    (hfrozen : state.frozen = (request.state predecessor (store.stopped request predecessor)).frozen)
    (hmember : member ∈ store.stopped request predecessor) :
    ∃ stop, (member.id, stop) ∈ state.stops predecessor.id ∧ stop.frozen = member.stop := by
  have hmembers := frozen_members hfrozen
  unfold Request.state at hmembers
  by_cases hcoordinate : request.coordinateDescendants = true
  · rw [if_pos hcoordinate, Option.map_some, snapshots_frozen] at hmembers
    obtain ⟨records, hrecords, hsame⟩ := Option.map_eq_some_iff.mp hmembers
    obtain ⟨record, hrecord, hsnapshot⟩ := List.mem_map.mp (hsame ▸ List.mem_map_of_mem hmember)
    refine ⟨record.stop, ?_, congrArg Frozen.stop hsnapshot⟩
    rw [State.stops, hrecords]
    exact List.mem_map.mpr ⟨record, hrecord, congrArg (fun frozen => (frozen.taskId, record.stop)) hsnapshot⟩
  · rw [if_neg hcoordinate, Option.map_none, Option.map_eq_none_iff] at hmembers
    rw [Store.stopped, if_neg hcoordinate, List.mem_singleton] at hmember
    refine ⟨state.stop, ?_, ?_⟩
    · rw [State.stops, hmembers, hmember]
      exact List.mem_singleton_self _
    · rw [hmember]
      exact congrArg State.stop hfrozen

/-- The tree that the transaction reads is the one that was admitted. -/
theorem tree_ids {store : Store} {request : Request} {predecessor : Row} {state : State}
    (hfrozen : state.frozen = (request.state predecessor (store.stopped request predecessor)).frozen)
    (hcoordinate : request.coordinateDescendants = true) :
    ∃ records, state.members = some records ∧
      ∀ id, id ∈ records.map Frozen.taskId ↔ ∃ row ∈ store.members predecessor.id, row.id = id := by
  have hmembers := frozen_members hfrozen
  unfold Request.state Store.stopped at hmembers
  rw [if_pos hcoordinate, if_pos hcoordinate, Option.map_some, snapshots_frozen] at hmembers
  obtain ⟨records, hrecords, hsame⟩ := Option.map_eq_some_iff.mp hmembers
  refine ⟨records, hrecords, fun id => ?_⟩
  rw [← snapshots_frozen] at hsame
  rw [frozen_taskIds hsame, snapshots_taskIds]
  exact List.mem_map

/-- Where it confirms, the transaction has seen the stop of all that was admitted. -/
theorem confirms_ended {C : Settings} {admission admitted before after : Store} {request : Request}
    {owners : List Owner}
    {predecessor : Row} {later : List StoreEvent} {event : StoreEvent} {state : State} (hinv : Inv admission)
    (hprepare : Executes (Store.apply C) admission (.prepare request owners) admitted)
    (hget : admission.get request.predecessorId = some predecessor)
    (hnew : ∃ row ∈ admitted.rows, row.id = request.draft.id)
    (hlater : Runs C admitted later before) (hstep : Executes (Store.apply C) before event after)
    (hconfirms : Confirms request.draft.id state before after) :
    (request.coordinateDescendants = true → ∀ id, (∃ row ∈ before.members predecessor.id, row.id = id) ↔
      ∃ row ∈ admission.members predecessor.id, row.id = id) ∧
    ∀ member ∈ admission.stopped request predecessor,
      Ended (fun row => row.status == .success) predecessor.id state before member := by
  have hinvAdmitted := hinv.step hprepare
  have hinvBefore := hinvAdmitted.run hlater
  have hstored : Admitted request.draft.id predecessor.id
      (request.state predecessor (admission.stopped request predecessor)) admitted := by
    have hprepared := hprepare
    rw [Executes, Store.apply] at hprepared
    split at hprepared
    · next hplain =>
      rw [Bool.and_eq_true] at hplain
      obtain rfl | ⟨found, hfound, _, rfl⟩ := prepare_cases hprepared
      · obtain ⟨row, hrow, hid⟩ := hnew
        exact absurd hid (Store.fresh_iff.mp hplain.1 row hrow)
      · obtain rfl : found = predecessor := Option.some.inj (hfound.symm.trans hget)
        exact ⟨_, List.mem_append_right _ (List.mem_singleton_self _), rfl, rfl, _, rfl, rfl⟩
    · cases hprepared
  obtain ⟨row, hrow, hid, hsource, _⟩ := hstored.run hinvAdmitted hlater
  obtain ⟨row', hrow', hid', sourceId, hsource', hseen⟩ := confirms_seen hinvBefore hstep hconfirms
  obtain rfl := hinvBefore.row_ext hrow hrow' (hid.trans hid'.symm)
  obtain rfl : predecessor.id = sourceId := Option.some.inj (hsource.symm.trans hsource')
  have hfrozen : state.frozen = (request.state predecessor (admission.stopped request predecessor)).frozen := by
    obtain ⟨final, hfinal, hfinalId, _, kept, hkept, hsame⟩ := (hstored.run hinvAdmitted hlater).step hinvBefore hstep
    obtain ⟨_, confirmed, hconfirmed, hconfirmedId, hstate, _⟩ := hconfirms
    obtain rfl := (hinvBefore.step hstep).row_ext hfinal hconfirmed (hfinalId.trans hconfirmedId.symm)
    obtain rfl : kept = state := Option.some.inj (hkept.symm.trans hstate)
    exact hsame
  refine ⟨fun hcoordinate id => ?_, fun member hmember => ?_⟩
  · obtain ⟨records, hrecords, hids⟩ := tree_ids hfrozen hcoordinate
    exact (hseen.tree records hrecords id).trans (hids id)
  · obtain ⟨stop, hstop, hsame⟩ := mem_stops hfrozen hmember
    obtain ⟨ended, hended, hendedId, hstopped⟩ := hseen.stopped member.id stop hstop
    obtain ⟨hfree, hterminal, hevidence⟩ := predecessorStopped_iff.mp hstopped
    have hlease : stop.leaseToken = member.leaseToken := congrArg Stop.leaseToken hsame
    have hrun : stop.run = member.run := congrArg Stop.run hsame
    have hcompleted : stop.completed = (member.status == .success) := congrArg Stop.completed hsame
    refine ⟨ended, hended, hendedId, hterminal, hfree, fun hhad hexempt => ⟨stop, hstop, hlease, hrun, ?_⟩⟩
    obtain hdone | ⟨hnoLease, hnoRun⟩ | hproof := hevidence
    · exact absurd (hdone.symm.trans (hcompleted.trans hexempt)) (by decide)
    · rw [← hlease, ← hrun, hnoLease, hnoRun] at hhad
      simp at hhad
    · exact hproof

/-- A successor waits for the stop of every Task that it replaces and that had not succeeded
before. -/
theorem replacement_waits (C : Settings) {first : Store} (hfounded : Founded first) :
    Waits C (fun row => row.status == .success) first where
  unclaimed _ _ hrun := (hfounded.inv.run hrun).unleased
  stopped _ _ _ _ _ _ hrun hprepare hget hnew _ _ _ _ _ hlater hstep hconfirms :=
    confirms_ended (hfounded.inv.run hrun) hprepare hget hnew hlater hstep hconfirms
  unique _ _ hrun row hrow row' hrow' hreplaced hreplaced' hsource :=
    (hfounded.inv.run hrun).unique hrow hrow' hreplaced hreplaced' hsource
  receipts _ _ _ _ hrun hstep row hrow state hstate := by
    obtain ⟨row', hrow', hlater⟩ := (step_evolves (hfounded.inv.run hrun) hstep).row hrow
    exact ⟨row', hrow', hlater.id, hlater.replacement state hstate⟩

/-- A planned Task that has succeeded, before its worker gave the lease back. -/
def finishing : Row where
  id := 1
  record := ⟨{status := .success, lease := some ⟨7, 120⟩, attemptCount := 1},
    [{number := 1, phase := .plan, token := 7}]⟩
  place := {agentId := some 1}

/-- The demand to replace it, at its first revision. -/
def demanded : Request where
  draft := {id := 2, record := ⟨{status := .create}, []⟩, place := {agentId := some 1}}
  predecessorId := 1
  expectedRevision := 1
  actionKey := "replace"
  coordinateDescendants := false

theorem finishing_founded : Founded {rows := [finishing]} := by
  refine ⟨List.nodup_singleton _, fun row hrow => ?_, fun _ => rfl⟩
  rw [List.mem_singleton.mp hrow]
  exact ⟨rfl, rfl⟩

theorem finishing_replacement_waits : Waits .shipped (fun row => row.status == .success) {rows := [finishing]} :=
  replacement_waits .shipped finishing_founded

/-- Its successor is confirmed, although nothing says that the worker stopped. -/
theorem succeeded_predecessor_needs_no_evidence :
    ¬∀ first, Founded first → Waits .shipped (fun _ => false) first := by
  intro hall
  let later : List StoreEvent := [.command 1 (.complete 10 7) {}, .look 0 2]
  let state : State := ⟨.confirmed, "replace", ⟨some 7, none, true, none⟩, none⟩
  have hruns : ((Store.apply .shipped {rows := [finishing]} (.prepare demanded [])).any fun admitted =>
      (admitted.rows.any fun row => row.id == 2) &&
      (later.foldlM (Store.apply .shipped) admitted).any fun before =>
        (before.rows.any fun row => row.id == 2 && row.replacementPending) &&
        (before.rows.all fun row => !state.stop.attempted row) &&
        (Store.apply .shipped before (.commit 0 [])).any fun after =>
          after.rows.any fun row => row.id == 2 && row.replacement == some state) = true := by
    decide +kernel
  obtain ⟨admitted, hprepare, hruns⟩ := (Option.any_eq_true _ _).mp hruns
  rw [Bool.and_eq_true] at hruns
  obtain ⟨hnew, hruns⟩ := hruns
  obtain ⟨before, hlater, hruns⟩ := (Option.any_eq_true _ _).mp hruns
  simp only [Bool.and_eq_true, List.any_eq_true, beq_iff_eq] at hnew hruns
  obtain ⟨⟨hpending, hnothing⟩, hruns⟩ := hruns
  obtain ⟨after, hcommit, hruns⟩ := (Option.any_eq_true _ _).mp hruns
  simp only [Bool.and_eq_true, List.any_eq_true, beq_iff_eq] at hruns
  obtain ⟨row, hrow, hid, hstate⟩ := hruns
  obtain ⟨_, hended⟩ := (hall _ finishing_founded).stopped [] _ demanded [] admitted finishing
    (.nil _) hprepare rfl hnew
    later before (.commit 0 []) after state (.of_foldlM hlater) hcommit ⟨hpending, row, hrow, hid, hstate, rfl⟩
  obtain ⟨ended, hmem, _, _, _, hevidence⟩ := hended finishing (List.mem_singleton_self _)
  obtain ⟨stop, hstop, _, _, hreceipt | hattempt⟩ := hevidence (.inl rfl) rfl
  · rw [(Prod.mk.inj (List.mem_singleton.mp hstop)).2] at hreceipt
    cases hreceipt
  · rw [(Prod.mk.inj (List.mem_singleton.mp hstop)).2] at hattempt
    have hfalse := List.all_eq_true.mp hnothing ended hmem
    rw [hattempt] at hfalse
    cases hfalse

end Galaris.Tasks.Replacement
