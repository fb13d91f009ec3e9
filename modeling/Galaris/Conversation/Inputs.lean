import Galaris.Conversation.Rounds
import Mathlib.Data.List.Dedup
import Mathlib.Data.List.Nodup

/-! Where the inputs of a room are.

For its inputs an operation does one of a few things to the rounds (`Move`): it writes a round
and leaves its inputs, it closes a round with its inputs consumed, it merges a round into
another one, it admits a message, it restarts a round that was stopped, or it drops a round
whose inputs nobody has. A message is an input of one live round at most (`Inv.alone`), and
stays accounted for as long as nothing is dropped (`inputs_while_not_dropped`). -/
namespace Galaris.Conversation

open Transition

namespace Round

def live (round : Round) : Bool := round.status.active

/-- The round is live, or may be restarted. -/
def holds (round : Round) : Bool :=
  round.live || (round.status == .cancelled && round.resolvedByRoundId.isNone && !round.contactAuthorizationPending)

def messages (round : Round) : List Message := round.inputs.map (·.message)

/-- The message is an input that is not consumed. -/
def awaits (round : Round) (message : Message) : Prop :=
    ∃ input ∈ round.inputs, input.message = message ∧ input.consumed = false

/-- The message is an input that is consumed. -/
def answered (round : Round) (message : Message) : Prop :=
    ∃ input ∈ round.inputs, input.message = message ∧ input.consumed = true

/-- A command is requested that `apply_requested_control` applies. -/
def requested (round : Round) : Bool := round.controlAction.any (·.requested)

/-- Requests are for workers; a round whose worker is done may have one only if it was sent. -/
def settled (round : Round) : Prop :=
  round.requested = true → round.status.processing = true ∨
    (round.live = false ∧ [Delivery.sending, .unknown, .delivered].contains round.deliveryState = true)

/-- A round that is processed is live. -/
theorem live_of_processing {round : Round} (h : round.status.processing = true) : round.live = true := by
  unfold live
  cases hstatus : round.status <;> rw [hstatus] at h <;> first | rfl | cases h

/-- A live round holds its messages. -/
theorem holds_of_live {round : Round} (h : round.live = true) : round.holds = true := by
  unfold holds
  rw [h]
  rfl

/-- The messages of a round are the pending and the answered ones. -/
theorem mem_messages {round : Round} {message : Message} :
    message ∈ round.messages ↔ round.awaits message ∨ round.answered message := by
  unfold messages awaits answered
  rw [List.mem_map]
  constructor
  · rintro ⟨input, hmem, rfl⟩
    cases hconsumed : input.consumed with
    | false => exact .inl ⟨input, hmem, rfl, hconsumed⟩
    | true => exact .inr ⟨input, hmem, rfl, hconsumed⟩
  · rintro (⟨input, hmem, rfl, -⟩ | ⟨input, hmem, rfl, -⟩)
    · exact ⟨input, hmem, rfl⟩
    · exact ⟨input, hmem, rfl⟩

theorem mem_openMessages {source target : Round} {message : Message} :
    message ∈ source.openMessages target ↔ source.awaits message ∨ target.awaits message := by
  unfold openMessages awaits
  simp only [List.mem_map, List.mem_filter, List.mem_append, Bool.not_eq_true']
  constructor
  · rintro ⟨input, ⟨hmem | hmem, hopen⟩, rfl⟩
    · exact .inl ⟨input, hmem, rfl, hopen⟩
    · exact .inr ⟨input, hmem, rfl, hopen⟩
  · rintro (⟨input, hmem, rfl, hopen⟩ | ⟨input, hmem, rfl, hopen⟩)
    · exact ⟨input, ⟨.inl hmem, hopen⟩, rfl⟩
    · exact ⟨input, ⟨.inr hmem, hopen⟩, rfl⟩

/-- A merge has the messages that are not consumed, and none of its inputs is. -/
theorem mergedInputs_spec (source target : Round) :
    (∀ input ∈ source.mergedInputs target, input.consumed = false) ∧
      ∀ message, (∃ input ∈ source.mergedInputs target, input.message = message) ↔
      source.awaits message ∨ target.awaits message := by
  unfold mergedInputs
  constructor
  · intro input hinput
    obtain ⟨row, -, rfl⟩ := List.mem_map.mp hinput
    rfl
  · intro message
    rw [← mem_openMessages]
    constructor
    · rintro ⟨input, hinput, rfl⟩
      obtain ⟨row, hrow, rfl⟩ := List.mem_map.mp hinput
      have hmem := List.fst_mem_of_mem_zipIdx hrow
      exact (List.mem_insertionSort _).mp (List.mem_dedup.mp hmem)
    · intro hmem
      have hmem := List.mem_dedup.mpr ((List.mem_insertionSort (· ≤ ·)).mpr hmem)
      obtain ⟨place, hplace⟩ := List.mem_iff_getElem?.mp hmem
      refine ⟨⟨message, 1 + place, false⟩, List.mem_map.mpr ⟨(message, 1 + place), ?_, rfl⟩, rfl⟩
      exact List.mk_mem_zipIdx_iff_le_and_getElem?_sub.mpr ⟨Nat.le_add_right _ _, by rwa [Nat.add_sub_cancel_left]⟩

end Round

/-! ### Rounds in a list -/

/-- The round of this id is replaced. -/
def write (rounds : List Round) (round : Round) : List Round :=
    rounds.map fun other => if other.id = round.id then round else other

/-- Writing a round adds none and removes none. -/
theorem write_ids (rounds : List Round) (round : Round) : (write rounds round).map (·.id) = rounds.map (·.id) := by
  unfold write
  rw [List.map_map]
  refine List.map_congr_left fun other _ => ?_
  show (if other.id = round.id then round else other).id = other.id
  split
  case isTrue heq => exact heq.symm
  case isFalse => rfl

/-- The rounds after one has been written. -/
theorem mem_write {rounds : List Round} {round other : Round} :
    other ∈ write rounds round ↔ (other = round ∧ ∃ old ∈ rounds, old.id = round.id) ∨
        (other ∈ rounds ∧ other.id ≠ round.id) := by
  unfold write
  rw [List.mem_map]
  constructor
  · rintro ⟨old, hmem, heq⟩
    split at heq
    case isTrue hid => exact .inl ⟨heq.symm, old, hmem, hid⟩
    case isFalse hid => exact .inr ⟨heq ▸ hmem, heq ▸ hid⟩
  · rintro (⟨rfl, old, hmem, hid⟩ | ⟨hmem, hid⟩)
    · exact ⟨old, hmem, if_pos hid⟩
    · exact ⟨other, hmem, if_neg hid⟩

/-- What is in the list after a write of a round that is there. -/
theorem mem_write_of_mem {rounds : List Round} {old round other : Round} (hold : old ∈ rounds)
    (hid : round.id = old.id) :
    other ∈ write rounds round ↔ other = round ∨ (other ∈ rounds ∧ other.id ≠ old.id) := by
  rw [mem_write, hid]
  exact or_congr_left ⟨fun h => h.1, fun h => ⟨h, old, hold, rfl⟩⟩

/-! ### Moves -/

/-- What an operation does to the inputs of the room. -/
inductive Move : Bool → List Round → List Round → Prop
  /-- A round is written with the inputs it had. -/
  | keep {drops : Bool} {rounds : List Round} {round next : Round} (hmem : round ∈ rounds) (hid : next.id = round.id)
      (hinputs : next.inputs = round.inputs) (hlive : next.live = round.live)
      (hholds : next.holds = true → round.holds = true)
      (hsettled : next.settled) : Move drops rounds (write rounds next)
  /-- A live round ends with its inputs consumed. -/
  | consume {drops : Bool} {rounds : List Round} {round next : Round} (hmem : round ∈ rounds) (hid : next.id = round.id)
      (hinputs : next.inputs = round.markInputsConsumed.inputs) (hlive : round.live = true) (hdead : next.live = false)
      (hsettled : next.settled) : Move drops rounds (write rounds next)
  /-- A live round ends with its inputs left. -/
  | drop {drops : Bool} {rounds : List Round} {round next : Round} (hmem : round ∈ rounds) (hid : next.id = round.id)
      (hinputs : next.inputs = round.inputs) (hlive : round.live = true) (hdead : next.live = false)
      (hsettled : next.settled) (hempty : drops = true ∨ round.inputs = []) : Move drops rounds (write rounds next)
  /-- A live round is merged into another one, and ends. -/
  | merge {drops : Bool} {rounds : List Round} {source target next : Round}
    (hsource : source ∈ rounds) (htarget : target ∈ rounds)
      (hne : source.id ≠ target.id) (hlive : source.live = true) (hlive' : target.live = true)
      (hid : next.id = source.id)
      (hinputs : next.inputs = source.inputs) (hdead : next.live = false) (hlost : next.holds = false)
      (hsettled : next.settled) :
      Move drops rounds (write (write rounds {target with inputs := next.mergedInputs target}) next)
  /-- A message joins a live round. -/
  | join {drops : Bool} {rounds : List Round} {round next : Round} {message : Message}
    (hmem : round ∈ rounds) (hid : next.id = round.id)
      (hinputs : next.inputs = (round.append message).inputs) (hlive : round.live = true) (hlive' : next.live = true)
      (hsettled : next.settled) (hnew : ∀ other ∈ rounds, message ∉ other.messages) :
      Move drops rounds (write rounds next)
  /-- A round is added without inputs. -/
  | add {drops : Bool} {rounds : List Round} {next : Round} (hfresh : ∀ other ∈ rounds, other.id ≠ next.id)
      (hinputs : next.inputs = []) (hsettled : next.settled) : Move drops rounds (rounds ++ [next])
  /-- A round that was stopped is restarted. -/
  | restart {drops : Bool} {rounds : List Round} {round next added : Round} (hmem : round ∈ rounds)
    (hid : next.id = round.id)
      (hfresh : ∀ other ∈ rounds, other.id ≠ added.id) (hinputs : next.inputs = round.inputs)
      (hadded : added.inputs = round.inputs.map fun input => {input with consumed := false})
      (hholds : round.holds = true) (hdead : next.live = false) (hlost : next.holds = false)
      (hdead' : round.live = false)
      (hsettled : next.settled) (hsettled' : added.settled) :
      Move drops rounds (write (rounds ++ [added]) next)

/-- A message waits in one round that is live or may be restarted. -/
structure Inv (rounds : List Round) : Prop where
  ids : (rounds.map (·.id)).Nodup
  waits : ∀ round ∈ rounds, round.live = true → ∀ input ∈ round.inputs, input.consumed = false
  alone : ∀ round ∈ rounds, ∀ other ∈ rounds, round.holds = true → other.holds = true → ∀ message,
    message ∈ round.messages →
    message ∈ other.messages → round = other
  settled : ∀ round ∈ rounds, round.settled

/-- The message is an input of a live round, or it was answered. -/
def Accounted (rounds : List Round) (message : Message) : Prop :=
  (∃ round ∈ rounds, round.live = true ∧ round.awaits message) ∨ ∃ round ∈ rounds, round.answered message

/-- A round is known by its identifier. -/
theorem Inv.eq {rounds : List Round} (h : Inv rounds) {round other : Round}
    (hround : round ∈ rounds) (hother : other ∈ rounds)
    (hid : round.id = other.id) : round = other := List.inj_on_of_nodup_map h.ids hround hother hid

/-- A live round has answered none of its messages. -/
theorem Inv.not_answered {rounds : List Round} (h : Inv rounds) {round : Round} (hmem : round ∈ rounds)
    (hlive : round.live = true) {message : Message} : ¬ round.answered message := by
  rintro ⟨input, hinput, -, hconsumed⟩
  rw [h.waits round hmem hlive input hinput] at hconsumed
  cases hconsumed

/-- A round is written; what it holds, no other round holds. -/
theorem Inv.write {rounds : List Round} (h : Inv rounds) {round next : Round}
    (hmem : round ∈ rounds) (hid : next.id = round.id)
    (hwaits : next.live = true → ∀ input ∈ next.inputs, input.consumed = false)
    (halone : next.holds = true → ∀ message ∈ next.messages, ∀ other ∈ rounds, other.id ≠ round.id →
      other.holds = true →
      message ∉ other.messages)
    (hsettled : next.settled) : Inv (Conversation.write rounds next) where
  ids := by
    rw [write_ids]
    exact h.ids
  waits other hother hlive := by
    obtain rfl | ⟨hother, -⟩ := (mem_write_of_mem hmem hid).mp hother
    · exact hwaits hlive
    · exact h.waits other hother hlive
  alone one hone other hother hholds hholds' message hmessage hmessage' := by
    obtain hnew | ⟨hold, hne⟩ := (mem_write_of_mem hmem hid).mp hone
    · obtain hnew' | ⟨hold', hne'⟩ := (mem_write_of_mem hmem hid).mp hother
      · exact hnew.trans hnew'.symm
      · exact absurd hmessage' (halone (hnew ▸ hholds) message (hnew ▸ hmessage) other hold' hne' hholds')
    · obtain hnew' | ⟨hold', -⟩ := (mem_write_of_mem hmem hid).mp hother
      · exact absurd hmessage (halone (hnew' ▸ hholds') message (hnew' ▸ hmessage') one hold hne hholds)
      · exact h.alone one hold other hold' hholds hholds' message hmessage hmessage'
  settled other hother := by
    obtain rfl | ⟨hother, -⟩ := (mem_write_of_mem hmem hid).mp hother
    · exact hsettled
    · exact h.settled other hother

/-- A round that holds messages holds them alone. -/
theorem Inv.only {rounds : List Round} (h : Inv rounds) {round : Round} (hmem : round ∈ rounds)
    (hholds : round.holds = true)
    {message : Message} (hmessage : message ∈ round.messages) {other : Round}
    (hother : other ∈ rounds) (hne : other.id ≠ round.id)
    (hholds' : other.holds = true) : message ∉ other.messages := fun hmessage' =>
  hne (congrArg (·.id) (h.alone round hmem other hother hholds hholds' message hmessage hmessage')).symm

/-- A round is added; what it holds, no other round holds. -/
theorem Inv.add {rounds : List Round} (h : Inv rounds) {next : Round} (hfresh : ∀ other ∈ rounds, other.id ≠ next.id)
    (hwaits : ∀ input ∈ next.inputs, input.consumed = false)
    (halone : ∀ message ∈ next.messages, ∀ other ∈ rounds, other.holds = true → message ∉ other.messages)
    (hsettled : next.settled) : Inv (rounds ++ [next]) where
  ids := by
    rw [List.map_append, List.map_singleton, List.nodup_append]
    refine ⟨h.ids, List.nodup_singleton _, fun id hid other hother => ?_⟩
    obtain ⟨round, hround, rfl⟩ := List.mem_map.mp hid
    rw [List.mem_singleton.mp hother]
    exact hfresh round hround
  waits round hround hlive := by
    obtain hround | hround := List.mem_append.mp hround
    · exact h.waits round hround hlive
    · rw [List.mem_singleton.mp hround]
      exact hwaits
  alone one hone other hother hholds hholds' message hmessage hmessage' := by
    obtain hone | hone := List.mem_append.mp hone
    · obtain hother | hother := List.mem_append.mp hother
      · exact h.alone one hone other hother hholds hholds' message hmessage hmessage'
      · rw [List.mem_singleton.mp hother] at hmessage'
        exact absurd hmessage (halone message hmessage' one hone hholds)
    · obtain hother | hother := List.mem_append.mp hother
      · rw [List.mem_singleton.mp hone] at hmessage
        exact absurd hmessage' (halone message hmessage other hother hholds')
      · exact (List.mem_singleton.mp hone).trans (List.mem_singleton.mp hother).symm
  settled round hround := by
    obtain hround | hround := List.mem_append.mp hround
    · exact h.settled round hround
    · rw [List.mem_singleton.mp hround]
      exact hsettled

/-- Two rounds are written in any order. -/
theorem write_comm (rounds : List Round) {one other : Round} (hne : one.id ≠ other.id) :
    write (write rounds one) other = write (write rounds other) one := by
  unfold write
  rw [List.map_map, List.map_map]
  refine List.map_congr_left fun round _ => ?_
  simp only [Function.comp_apply]
  by_cases hone : round.id = one.id
  · have hother : round.id ≠ other.id := hone ▸ hne
    rw [if_pos hone, if_neg hother, if_neg hne, if_pos hone]
  · by_cases hother : round.id = other.id
    · rw [if_neg hone, if_pos hother, if_neg (Ne.symm hne)]
    · rw [if_neg hone, if_neg hother, if_neg hone]

theorem write_append (rounds : List Round) {added round : Round} (hne : added.id ≠ round.id) :
    write (rounds ++ [added]) round = write rounds round ++ [added] := by
  unfold write
  rw [List.map_append, List.map_singleton, if_neg hne]

theorem Round.messages_eq {round next : Round} (h : next.inputs = round.inputs) : next.messages = round.messages :=
  congrArg (List.map fun input : Input => input.message) h

theorem Round.messages_consumed (round : Round) : round.markInputsConsumed.messages = round.messages := by
  unfold Round.messages Round.markInputsConsumed
  rw [List.map_map]
  rfl

theorem Round.mem_messages_append {round : Round} {message other : Message} :
    other ∈ (round.append message).messages ↔ other ∈ round.messages ∨ other = message := by
  unfold Round.append Round.messages
  rw [List.map_append, List.mem_append, List.map_singleton, List.mem_singleton]

/-- A move keeps the invariant. -/
theorem Move.inv {drops : Bool} {rounds rounds' : List Round} (hmove : Move drops rounds rounds')
    (h : Inv rounds) : Inv rounds' := by
  cases hmove with
  | @keep round next hmem hid hinputs hlive hholds hsettled =>
    refine h.write hmem hid (fun hnext => ?_) (fun hnext message hmessage => ?_) hsettled
    · rw [hinputs]
      exact h.waits round hmem (hlive.symm.trans hnext)
    · rw [Round.messages_eq hinputs] at hmessage
      exact fun other hother hne => h.only hmem (hholds hnext) hmessage hother hne
  | @consume round next hmem hid hinputs hlive hdead hsettled =>
    refine h.write hmem hid (fun hnext => absurd (hdead.symm.trans hnext) nofun) (fun _ message hmessage => ?_) hsettled
    rw [Round.messages_eq hinputs, Round.messages_consumed] at hmessage
    exact fun other hother hne => h.only hmem (Round.holds_of_live hlive) hmessage hother hne
  | @drop round next hmem hid hinputs hlive hdead hsettled =>
    refine h.write hmem hid (fun hnext => absurd (hdead.symm.trans hnext) nofun) (fun _ message hmessage => ?_) hsettled
    rw [Round.messages_eq hinputs] at hmessage
    exact fun other hother hne => h.only hmem (Round.holds_of_live hlive) hmessage hother hne
  | @merge source target next hsource htarget hne hlive hlive' hid hinputs hdead hlost hsettled =>
    -- The source lets go of its messages before the target takes them.
    have hclosed : Inv (Conversation.write rounds next) :=
      h.write hsource hid (fun hnext => absurd (hdead.symm.trans hnext) nofun)
        (fun hnext => absurd (hlost.symm.trans hnext) nofun)
        hsettled
    have hstays : target ∈ Conversation.write rounds next :=
      (mem_write_of_mem hsource hid).mpr (.inr ⟨htarget, Ne.symm hne⟩)
    have hids : ({target with inputs := next.mergedInputs target} : Round).id ≠ next.id :=
        fun heq => hne (hid.symm.trans heq.symm)
    rw [write_comm rounds hids]
    obtain ⟨hwaits, hmessages⟩ := Round.mergedInputs_spec next target
    refine hclosed.write hstays rfl (fun _ => hwaits) (fun _ message hmessage other hother hother' hholds => ?_)
      (hclosed.settled target hstays)
    have hmessage : message ∈ source.messages ∨ message ∈ target.messages := by
      obtain hawaits | hawaits := (hmessages message).mp (List.mem_map.mp hmessage)
      · exact .inl (Round.messages_eq hinputs ▸ Round.mem_messages.mpr (.inl hawaits))
      · exact .inr (Round.mem_messages.mpr (.inl hawaits))
    obtain hnext | ⟨hother, hnot⟩ := (mem_write_of_mem hsource hid).mp hother
    · rw [hnext, hlost] at hholds
      cases hholds
    · obtain hmessage | hmessage := hmessage
      · exact h.only hsource (Round.holds_of_live hlive) hmessage hother hnot hholds
      · exact h.only htarget (Round.holds_of_live hlive') hmessage hother hother' hholds
  | @join round next message hmem hid hinputs hlive hlive' hsettled hnew =>
    refine h.write hmem hid (fun _ input hinput => ?_) (fun _ other hmessage found hfound hne hholds => ?_) hsettled
    · rw [hinputs] at hinput
      obtain hinput | hinput := List.mem_append.mp hinput
      · exact h.waits round hmem hlive input hinput
      · rw [List.mem_singleton.mp hinput]
    · rw [Round.messages_eq hinputs] at hmessage
      obtain hmessage | rfl := Round.mem_messages_append.mp hmessage
      · exact h.only hmem (Round.holds_of_live hlive) hmessage hfound hne hholds
      · exact hnew found hfound
  | @add next hfresh hinputs hsettled =>
    refine h.add hfresh (fun input hinput => ?_) (fun message hmessage => ?_) hsettled
    · rw [hinputs] at hinput
      cases hinput
    · unfold Round.messages at hmessage
      rw [hinputs] at hmessage
      cases hmessage
  | @restart round next added hmem hid hfresh hinputs hadded hholds hdead hlost hdead' hsettled hsettled' =>
    have hclosed : Inv (Conversation.write rounds next) :=
      h.write hmem hid (fun hnext => absurd (hdead.symm.trans hnext) nofun)
        (fun hnext => absurd (hlost.symm.trans hnext) nofun)
        hsettled
    rw [write_append rounds (hid ▸ Ne.symm (hfresh round hmem))]
    refine hclosed.add (fun other hother => ?_) (fun input hinput => ?_)
      (fun message hmessage other hother hother' => ?_) hsettled'
    · obtain rfl | ⟨hother, -⟩ := (mem_write_of_mem hmem hid).mp hother
      · rw [hid]
        exact hfresh round hmem
      · exact hfresh other hother
    · rw [hadded] at hinput
      obtain ⟨before, -, rfl⟩ := List.mem_map.mp hinput
      rfl
    · have hmessage : message ∈ round.messages := by
        unfold Round.messages at hmessage ⊢
        rw [hadded, List.map_map] at hmessage
        exact hmessage
      obtain hnext | ⟨hother, hne⟩ := (mem_write_of_mem hmem hid).mp hother
      · rw [hnext, hlost] at hother'
        cases hother'
      · exact h.only hmem hholds hmessage hother hne hother'

theorem Round.awaits_eq {round next : Round} (h : next.inputs = round.inputs) {message : Message} :
    next.awaits message ↔ round.awaits message := by
  unfold Round.awaits
  rw [h]

theorem Round.answered_eq {round next : Round} (h : next.inputs = round.inputs) {message : Message} :
    next.answered message ↔ round.answered message := by
  unfold Round.answered
  rw [h]

/-- A write accounts for the messages that the round had accounted for. -/
theorem Accounted.write {rounds : List Round} {round next : Round} {message : Message} (h : Accounted rounds message)
    (hmem : round ∈ rounds) (hid : next.id = round.id) (hids : (rounds.map (·.id)).Nodup)
    (hlive : round.live = true → round.awaits message → Accounted (Conversation.write rounds next) message)
    (hdone : round.answered message → Accounted (Conversation.write rounds next) message) :
    Accounted (Conversation.write rounds next) message := by
  obtain ⟨other, hother, hlive', hawaits⟩ | ⟨other, hother, hanswered⟩ := h
  · by_cases hne : other.id = round.id
    · rw [List.inj_on_of_nodup_map hids hother hmem hne] at hlive' hawaits
      exact hlive hlive' hawaits
    · exact .inl ⟨other, (mem_write_of_mem hmem hid).mpr (.inr ⟨hother, hne⟩), hlive', hawaits⟩
  · by_cases hne : other.id = round.id
    · rw [List.inj_on_of_nodup_map hids hother hmem hne] at hanswered
      exact hdone hanswered
    · exact .inr ⟨other, (mem_write_of_mem hmem hid).mpr (.inr ⟨hother, hne⟩), hanswered⟩

theorem mem_write_self {rounds : List Round} {round next : Round} (hmem : round ∈ rounds) (hid : next.id = round.id) :
    next ∈ write rounds next := (mem_write_of_mem hmem hid).mpr (.inl rfl)

/-- Where nothing is dropped, messages stay accounted for. -/
theorem Move.accounted {rounds rounds' : List Round} (hmove : Move false rounds rounds')
    (h : Inv rounds) {message : Message}
    (haccounted : Accounted rounds message) : Accounted rounds' message := by
  cases hmove with
  | @keep round next hmem hid hinputs hlive hholds hsettled =>
    have hself := mem_write_self hmem hid
    refine haccounted.write hmem hid h.ids (fun hbefore hawaits => ?_) (fun hanswered => ?_)
    · exact .inl ⟨next, hself, hlive.trans hbefore, (Round.awaits_eq hinputs).mpr hawaits⟩
    · exact .inr ⟨next, hself, (Round.answered_eq hinputs).mpr hanswered⟩
  | @consume round next hmem hid hinputs hlive hdead hsettled =>
    have hself := mem_write_self hmem hid
    have hanswers : ∀ input ∈ round.inputs, input.message = message → next.answered message := by
      intro input hinput heq
      refine ⟨{input with consumed := true}, ?_, heq, rfl⟩
      rw [hinputs]
      exact List.mem_map_of_mem hinput
    refine haccounted.write hmem hid h.ids (fun _ hawaits => ?_) (fun hanswered => ?_)
    · obtain ⟨input, hinput, heq, -⟩ := hawaits
      exact .inr ⟨next, hself, hanswers input hinput heq⟩
    · obtain ⟨input, hinput, heq, -⟩ := hanswered
      exact .inr ⟨next, hself, hanswers input hinput heq⟩
  | @drop round next hmem hid hinputs hlive hdead hsettled hempty =>
    obtain hfalse | hempty := hempty
    · cases hfalse
    refine haccounted.write hmem hid h.ids (fun _ hawaits => ?_) (fun hanswered => ?_)
    · obtain ⟨input, hinput, -⟩ := hawaits
      rw [hempty] at hinput
      cases hinput
    · obtain ⟨input, hinput, -⟩ := hanswered
      rw [hempty] at hinput
      cases hinput
  | @merge source target next hsource htarget hne hlive hlive' hid hinputs hdead hlost hsettled =>
    have htaken : ∀ {found}, found = source ∨ found = target → found.awaits message →
        Accounted (write (write rounds {target with inputs := next.mergedInputs target}) next) message := by
      intro found hfound hawaits
      have hmerged : next.awaits message ∨ target.awaits message := by
        obtain rfl | rfl := hfound
        · exact .inl ((Round.awaits_eq hinputs).mpr hawaits)
        · exact .inr hawaits
      obtain ⟨hopen, hmessages⟩ := Round.mergedInputs_spec next target
      obtain ⟨input, hinput, heq⟩ := (hmessages message).mpr hmerged
      refine .inl ⟨{target with inputs := next.mergedInputs target}, mem_write.mpr (.inr ⟨?_, ?_⟩),
        hlive', input, hinput, heq,
        hopen input hinput⟩
      · exact mem_write_self htarget rfl
      · show target.id ≠ next.id
        rw [hid]
        exact Ne.symm hne
    obtain ⟨other, hother, hotherlive, hawaits⟩ | ⟨other, hother, hanswered⟩ := haccounted
    · by_cases htake : other = source ∨ other = target
      · exact htaken htake hawaits
      · obtain ⟨hsrc, htgt⟩ := not_or.mp htake
        refine .inl ⟨other, mem_write.mpr
          (.inr ⟨?_, fun heq => hsrc (h.eq hother hsource (heq.trans hid))⟩), hotherlive, hawaits⟩
        exact mem_write.mpr (.inr ⟨hother, fun heq => htgt (h.eq hother htarget heq)⟩)
    · -- A live round has no consumed input that the merge could lose.
      have hsrc : other ≠ source := fun heq => h.not_answered hsource hlive (heq ▸ hanswered)
      have htgt : other ≠ target := fun heq => h.not_answered htarget hlive' (heq ▸ hanswered)
      refine .inr ⟨other, mem_write.mpr (.inr ⟨?_, fun heq => hsrc (h.eq hother hsource (heq.trans hid))⟩), hanswered⟩
      exact mem_write.mpr (.inr ⟨hother, fun heq => htgt (h.eq hother htarget heq)⟩)
  | @join round next added hmem hid hinputs hlive hlive' hsettled hnew =>
    have hself := mem_write_self hmem hid
    refine haccounted.write hmem hid h.ids (fun _ hawaits => ?_)
      (fun hanswered => absurd hanswered (h.not_answered hmem hlive))
    obtain ⟨input, hinput, heq, hopen⟩ := hawaits
    refine .inl ⟨next, hself, hlive', input, ?_, heq, hopen⟩
    rw [hinputs]
    exact List.mem_append_left _ hinput
  | @add next hfresh hinputs hsettled =>
    obtain ⟨other, hother, hlive, hawaits⟩ | ⟨other, hother, hanswered⟩ := haccounted
    · exact .inl ⟨other, List.mem_append_left _ hother, hlive, hawaits⟩
    · exact .inr ⟨other, List.mem_append_left _ hother, hanswered⟩
  | @restart round next added hmem hid hfresh hinputs hadded hholds hdead hlost hdead' hsettled hsettled' =>
    obtain ⟨other, hother, hlive, hawaits⟩ | ⟨other, hother, hanswered⟩ := haccounted
    · refine .inl ⟨other, mem_write.mpr (.inr ⟨List.mem_append_left _ hother, fun heq => ?_⟩), hlive, hawaits⟩
      rw [h.eq hother hmem (heq.trans hid), hdead'] at hlive
      cases hlive
    · by_cases heq : other.id = next.id
      · rw [h.eq hother hmem (heq.trans hid)] at hanswered
        exact .inr ⟨next, mem_write_self (List.mem_append_left _ hmem) hid, (Round.answered_eq hinputs).mpr hanswered⟩
      · exact .inr ⟨other, mem_write.mpr (.inr ⟨List.mem_append_left _ hother, heq⟩), hanswered⟩

/-! ### Operations -/

def Moves (drops : Bool) : List Round → List Round → Prop := Relation.ReflTransGen (Move drops)

namespace State

/-- The round that is found has the identifier. -/
theorem get?_eq_some {s : State} {id : Id} {round : Round} (h : s.get? id = some round) :
    round ∈ s.rounds ∧ round.id = id := by
  unfold get? at h
  exact ⟨List.mem_of_find?_eq_some h, by simpa using List.find?_some h⟩

/-- A successor is another round, and frozen. -/
theorem successor?_eq_some {s : State} {round successor : Round} (h : s.successor? round = some successor) :
    successor ∈ s.rounds ∧ successor.status = .frozen ∧ successor.id ≠ round.id := by
  unfold successor? at h
  have hfound := List.find?_some h
  rw [Bool.and_eq_true, beq_iff_eq, decide_eq_true_eq] at hfound
  exact ⟨List.mem_of_find?_eq_some h, hfound.1, hfound.2⟩

/-- A round is written under the token that owns it. -/
theorem owned?_eq_some {s : State} {id : Id} {token : Token} {round : Round} (h : s.owned? id token = some round) :
    s.get? id = some round ∧ round.owned token s.clock = true := Option.filter_eq_some_iff.mp h

end State

theorem Round.processing_of_owned {round : Round} {token : Token} {now : Nat} (h : round.owned token now = true) :
    round.status.processing = true := by
  unfold Round.owned at h
  rw [Bool.and_eq_true, Bool.and_eq_true] at h
  exact h.1.1

theorem Round.settled_of_not_requested {round : Round} (h : round.requested = false) :
    round.settled := fun hrequested =>
  absurd (h.symm.trans hrequested) nofun

/-- Nothing is requested of a live round that no worker has. -/
theorem Round.settled.not_requested {round : Round} (h : round.settled) (hlive : round.live = true)
    (hidle : round.status.processing = false) : round.requested = false := by
  cases hrequested : round.requested with
  | false => rfl
  | true =>
    obtain hprocessing | ⟨hdead, -⟩ := h hrequested
    · rw [hidle] at hprocessing
      cases hprocessing
    · rw [hlive] at hdead
      cases hdead

theorem live_of_frozen {round : Round} (h : round.status = .frozen) : round.live = true := by
  unfold Round.live
  rw [h]
  rfl

variable {drops : Bool} {s s' : State}

/-- A round that stays live keeps its messages. -/
theorem put_keep {round next : Round} (hmem : round ∈ s.rounds) (hid : next.id = round.id)
    (hinputs : next.inputs = round.inputs)
    (hlive : round.live = true) (hlive' : next.live = true) (hsettled : next.settled) :
    Moves drops s.rounds (s.put next).rounds :=
  .single (.keep hmem hid hinputs (hlive'.trans hlive.symm) (fun _ => Round.holds_of_live hlive) hsettled)

/-- A round that ends consumes them. -/
theorem put_consume {round next : Round} (hmem : round ∈ s.rounds) (hid : next.id = round.id)
    (hinputs : next.inputs = round.markInputsConsumed.inputs) (hlive : round.live = true) (hdead : next.live = false)
    (hsettled : next.settled) : Moves drops s.rounds (s.put next).rounds :=
  .single (.consume hmem hid hinputs hlive hdead hsettled)

/-- A merge hands the messages of a round over to the other. -/
theorem mergeInto_moves {source source' target : Round} (hsource : source ∈ s.rounds) (hlive : source.live = true)
    (hid : source'.id = source.id) (hinputs : source'.inputs = source.inputs) (htarget : target ∈ s.rounds)
    (hlive' : target.live = true) (hne : source.id ≠ target.id) (hfree : source'.requested = false) :
    Moves drops s.rounds (s.mergeInto source' target).rounds := by
  let next : Round := {source' with status := .superseded, resolvedByRoundId := some target.id}
  have hmove : Move drops s.rounds (write (write s.rounds {target with inputs := next.mergedInputs target}) next) :=
    .merge hsource htarget hne hlive hlive' hid hinputs rfl rfl (Round.settled_of_not_requested hfree)
  exact .single hmove

/-- A requested command is applied to a live round. -/
theorem applyRequestedControl_moves {before round : Round} (hmem : before ∈ s.rounds) (hlive : before.live = true)
    (hid : round.id = before.id) (hinputs : round.inputs = before.inputs)
    (h : applyRequestedControl s round = some s') :
    Moves drops s.rounds s'.rounds := by
  unfold applyRequestedControl at h
  split at h
  case h_1 =>
    cases h
    refine put_consume hmem hid ?_ hlive rfl (Round.settled_of_not_requested rfl)
    show round.inputs.map _ = before.inputs.map _
    rw [hinputs]
  case h_2 =>
    dsimp only at h
    split at h
    case h_1 successor hsuccessor =>
      cases h
      obtain ⟨htarget, hfrozen, hne⟩ := State.successor?_eq_some hsuccessor
      exact mergeInto_moves hmem hlive hid hinputs htarget (live_of_frozen hfrozen)
        (fun heq => hne (heq.symm.trans hid.symm)) rfl
    case h_2 =>
      cases h
      exact put_keep hmem hid hinputs hlive rfl (Round.settled_of_not_requested rfl)
  case h_3 =>
    dsimp only at h
    split at h
    case h_1 =>
      cases h
      exact put_keep hmem hid hinputs hlive rfl (Round.settled_of_not_requested rfl)
    case h_2 =>
      split at h
      case isTrue =>
        cases h
        exact put_keep hmem hid hinputs hlive rfl (Round.settled_of_not_requested rfl)
      case isFalse =>
        cases h
        exact put_keep hmem hid hinputs hlive rfl (Round.settled_of_not_requested rfl)
  case h_4 => cases h

/-- Nothing is requested where no command is applied. -/
theorem not_requested_of_none {round : Round} (h : applyRequestedControl s round = none) : round.requested = false := by
  unfold applyRequestedControl at h
  unfold Round.requested
  split at h
  case h_1 => cases h
  case h_2 =>
    dsimp only at h
    split at h <;> cases h
  case h_3 =>
    dsimp only at h
    split at h
    case h_1 => cases h
    case h_2 => split at h <;> cases h
  case h_4 hstop hpause hrespond =>
    cases haction : round.controlAction with
    | none => rfl
    | some action =>
      cases action with
      | pause => exact absurd haction hpause
      | stop => exact absurd haction hstop
      | respond => exact absurd haction hrespond
      | resume => rfl
      | restart => rfl

/-- A claim moves no message. -/
theorem claimRound_moves {round : Round} (hmem : round ∈ s.rounds) (hlive : round.live = true)
    (hfree : round.requested = false)
    (token : Token) (authorized : Bool) : Moves drops s.rounds (claimRound s round token authorized).rounds := by
  unfold claimRound
  split
  · exact put_keep hmem rfl rfl hlive rfl (Round.settled_of_not_requested hfree)
  · exact put_keep hmem rfl rfl hlive rfl (Round.settled_of_not_requested hfree)

/-- An interruption; a round that is pending again is there, and nothing is requested of it. -/
theorem interruptRound_moves {round : Round} (hmem : round ∈ s.rounds) (hlive : round.live = true) (receipt : Bool) :
    Moves drops s.rounds (interruptRound s round receipt).1.rounds ∧
      ((interruptRound s round receipt).2 = true → ∃ next ∈ (interruptRound s round receipt).1.rounds,
        next.id = round.id ∧ next.status = .frozen ∧ next.requested = false) := by
  unfold interruptRound
  split
  case h_1 s' hcontrol => exact ⟨applyRequestedControl_moves hmem hlive rfl rfl hcontrol, nofun⟩
  case h_2 hcontrol =>
    have hfree := not_requested_of_none hcontrol
    split
    case isTrue => exact ⟨put_consume hmem rfl rfl hlive rfl (Round.settled_of_not_requested hfree), nofun⟩
    case isFalse =>
      split
      case h_1 => exact ⟨put_consume hmem rfl rfl hlive rfl (Round.settled_of_not_requested hfree), nofun⟩
      case h_2 =>
        dsimp only
        split
        case h_1 successor hsuccessor =>
          obtain ⟨htarget, hfrozen, hne⟩ := State.successor?_eq_some hsuccessor
          split
          · exact ⟨put_consume hmem rfl rfl hlive rfl (Round.settled_of_not_requested hfree), nofun⟩
          · exact ⟨mergeInto_moves hmem hlive rfl rfl htarget (live_of_frozen hfrozen) (Ne.symm hne) hfree, nofun⟩
        case h_2 =>
          refine ⟨put_keep hmem rfl rfl hlive rfl (Round.settled_of_not_requested hfree), fun _ => ?_⟩
          exact ⟨_, mem_write_self hmem rfl, rfl, rfl, hfree⟩

/-- The completion of a round is made of moves. -/
theorem completeRound_moves {round : Round} (hmem : round ∈ s.rounds) (hlive : round.live = true)
    (token : Token) (outcome : Outcome) :
    Moves drops s.rounds (completeRound s round token outcome).rounds := by
  unfold completeRound
  dsimp only
  split
  case h_1 s' hcontrol => refine applyRequestedControl_moves hmem hlive ?_ ?_ hcontrol <;> rfl
  case h_2 hcontrol =>
    have hfree := not_requested_of_none hcontrol
    change round.requested = false at hfree
    split
    case isTrue => exact put_keep hmem rfl rfl hlive rfl (Round.settled_of_not_requested hfree)
    case isFalse =>
      split
      case isTrue => exact put_keep hmem rfl rfl hlive rfl (Round.settled_of_not_requested hfree)
      case isFalse =>
        split
        case h_1 successor hsuccessor =>
          obtain ⟨htarget, hfrozen, hne⟩ := State.successor?_eq_some hsuccessor
          split
          · exact put_consume hmem rfl rfl hlive rfl (Round.settled_of_not_requested hfree)
          · exact mergeInto_moves hmem hlive rfl rfl htarget (live_of_frozen hfrozen) (Ne.symm hne) hfree
        case h_2 =>
          split
          case isTrue => exact put_consume hmem rfl rfl hlive rfl (Round.settled_of_not_requested hfree)
          case isFalse =>
            split
            case isTrue => exact put_keep hmem rfl rfl hlive hlive (Round.settled_of_not_requested hfree)
            case isFalse => exact put_consume hmem rfl rfl hlive rfl (Round.settled_of_not_requested hfree)

/-- A reply, delivered or not, consumes the messages of its round. -/
theorem finishReply_moves {round : Round} (hmem : round ∈ s.rounds) (hlive : round.live = true)
    (result : Except String Unit) :
    Moves drops s.rounds (finishReply s round result).rounds := by
  unfold finishReply
  split
  · exact put_consume hmem rfl rfl hlive rfl fun _ => .inr ⟨rfl, rfl⟩
  · exact put_consume hmem rfl rfl hlive rfl fun _ => .inr ⟨rfl, rfl⟩

/-- The failure of a round is made of moves. -/
theorem failRound_moves {round : Round} (hmem : round ∈ s.rounds) (hlive : round.live = true) (error : String) :
    Moves drops s.rounds (failRound s round error).rounds := by
  unfold failRound
  split
  case h_1 s' hcontrol => exact applyRequestedControl_moves hmem hlive rfl rfl hcontrol
  case h_2 hcontrol =>
    have hfree := not_requested_of_none hcontrol
    dsimp only
    split
    case h_1 successor hsuccessor _ =>
      obtain ⟨htarget, hfrozen, hne⟩ := State.successor?_eq_some hsuccessor
      exact mergeInto_moves hmem hlive rfl rfl htarget (live_of_frozen hfrozen) (Ne.symm hne) hfree
    case h_2 =>
      split
      · exact put_keep hmem rfl rfl hlive rfl (Round.settled_of_not_requested hfree)
      · exact put_consume hmem rfl rfl hlive rfl (Round.settled_of_not_requested hfree)

/-! ### Commands -/

theorem restart_available {round : Round} (h : round.availableActions.contains .restart = true) :
    round.status = .cancelled ∧ round.resolvedByRoundId.isNone = true ∧ round.contactAuthorizationPending = false := by
  unfold Round.availableActions at h
  split at h
  case isTrue => split at h <;> cases h
  case isFalse hcontact =>
    split at h
    case isTrue => cases h
    case isFalse =>
      split at h
      case isTrue => split at h <;> cases h
      case isFalse =>
        split at h
        case h_6 hstatus =>
          split at h
          case isTrue hnone =>
            rw [hstatus] at hcontact
            exact ⟨hstatus, hnone, by simpa using hcontact⟩
          case isFalse => cases h
        case h_5 => cases h
        case h_7 => cases h
        all_goals split at h <;> cases h

theorem resume_available {round : Round} (h : round.availableActions.contains .resume = true) :
    round.status = .paused := by
  unfold Round.availableActions at h
  split at h
  case isTrue => split at h <;> cases h
  case isFalse =>
    split at h
    case isTrue => cases h
    case isFalse =>
      split at h
      case isTrue => split at h <;> cases h
      case isFalse =>
        split at h
        case h_5 hstatus => exact hstatus
        case h_6 => split at h <;> cases h
        case h_7 => cases h
        all_goals split at h <;> cases h

/-- A command that is requested, or applied, is one for a live round. -/
theorem control_available {round : Round} (hsettled : round.settled) {action : Action}
    (haction : action.requested = true)
    (h : round.availableActions.contains action = true) : round.live = true := by
  unfold Round.live
  unfold Round.availableActions at h
  split at h
  case isTrue =>
    split at h
    case isTrue hstatus =>
      rw [eq_of_beq hstatus]
      rfl
    case isFalse => cases h
  case isFalse =>
    split at h
    case isTrue => cases h
    case isFalse hdelivery =>
      split at h
      case isTrue hrequested =>
        exact Round.live_of_processing
          ((hsettled hrequested).resolve_right fun hsent => hdelivery hsent.2)
      case isFalse =>
        split at h
        case h_6 =>
          split at h
          case isTrue =>
            cases action with
            | restart => cases haction
            | pause => cases h
            | stop => cases h
            | resume => cases h
            | respond => cases h
          case isFalse => cases h
        case h_7 => cases h
        all_goals
          next hstatus =>
          rw [hstatus]
          rfl

theorem get?_eq_none {id : Id} (h : s.get? id = none) : ∀ round ∈ s.rounds, round.id ≠ id := by
  unfold State.get? at h
  intro round hround heq
  have hnot := List.find?_eq_none.mp h round hround
  exact hnot (decide_eq_true heq)

/-- A restart takes the messages to a fresh round. -/
theorem restart_moves {round : Round} {fresh : Id} (hmem : round ∈ s.rounds)
    (hnew : ∀ other ∈ s.rounds, other.id ≠ fresh)
    (havailable : round.availableActions.contains .restart = true) (hsettled : round.settled) :
    Moves drops s.rounds ((s.add (restarted round fresh)).put {round with resolvedByRoundId := some fresh}).rounds := by
  obtain ⟨hstatus, hnone, hpending⟩ := restart_available havailable
  let next : Round := {round with resolvedByRoundId := some fresh}
  have hholds : round.holds = true := by
    unfold Round.holds
    rw [hstatus, hnone, hpending]
    simp
  have hdead : round.live = false := by
    unfold Round.live
    rw [hstatus]
    rfl
  have hlost : next.holds = false := by
    show (round.live || (round.status == .cancelled && false && !round.contactAuthorizationPending)) = false
    rw [hdead]
    simp
  have hmove : Move drops s.rounds (write (s.rounds ++ [restarted round fresh]) next) :=
    .restart hmem rfl hnew rfl rfl hholds hdead hlost hdead hsettled (Round.settled_of_not_requested rfl)
  exact .single hmove

theorem controlRound_moves {round : Round} (hmem : round ∈ s.rounds) (hsettled : round.settled) {action : Action}
    {expectedAttempt : Nat} {fresh : Id} (h : controlRound s round action expectedAttempt fresh = some s') :
    Moves drops s.rounds s'.rounds := by
  unfold controlRound at h
  split at h
  case isTrue => cases h
  case isFalse hallowed =>
    rw [Bool.or_eq_true, Bool.not_eq_true', not_or, Bool.not_eq_false] at hallowed
    split at h
    case isTrue => cases h
    case isFalse =>
      split at h
      case isTrue haction =>
        rw [beq_iff_eq] at haction
        subst haction
        split at h
        case isFalse => cases h
        case isTrue hcan =>
          cases h
          rw [Bool.and_eq_true, Option.isNone_iff_eq_none] at hcan
          exact restart_moves hmem (get?_eq_none hcan.2) hallowed.2 hsettled
      case isFalse hrestart =>
        split at h
        case isTrue hresume =>
          split at h
          case isFalse => cases h
          case isTrue =>
            cases h
            have hstatus : round.status = .paused := by
              obtain haction | hrespond := Bool.or_eq_true_iff.mp hresume
              · rw [beq_iff_eq] at haction
                subst haction
                exact resume_available hallowed.2
              · exact eq_of_beq (Bool.and_eq_true_iff.mp hrespond).2
            have hlive : round.live = true := by
              unfold Round.live
              rw [hstatus]
              rfl
            exact put_keep hmem rfl rfl hlive rfl (Round.settled_of_not_requested rfl)
        case isFalse hresume =>
          have haction : action.requested = true := by
            cases action with
            | pause => rfl
            | stop => rfl
            | respond => rfl
            | resume => exact absurd rfl hresume
            | restart => exact absurd rfl hrestart
          have hlive := control_available hsettled haction hallowed.2
          dsimp only at h
          split at h
          case isTrue hprocessing =>
            cases h
            exact put_keep hmem rfl rfl hlive hlive fun _ => .inl hprocessing
          case isFalse =>
            refine applyRequestedControl_moves hmem hlive ?_ ?_ h <;> rfl

theorem wakeRound_moves {round : Round} (hmem : round ∈ s.rounds) (hsettled : round.settled) {pending : Bool}
    (h : wakeRound s round pending = some s')
    (hdrops : drops = true ∨ round.effectStarted = false ∨ s.successor? round = none ∨ round.inputs = []) :
    Moves drops s.rounds s'.rounds := by
  unfold wakeRound at h
  split at h
  case isTrue => cases h
  case isFalse hstatus =>
    rw [ne_eq, Decidable.not_not] at hstatus
    have hlive : round.live = true := by
      unfold Round.live
      rw [hstatus]
      rfl
    have hfree := hsettled.not_requested hlive (by rw [hstatus]; rfl)
    split at h
    case h_1 successor hsuccessor =>
      split at h
      case isTrue heffect =>
        cases h
        refine .single (.drop hmem rfl rfl hlive rfl (Round.settled_of_not_requested hfree) ?_)
        obtain hdrops | hdrops | hdrops | hdrops := hdrops
        · exact .inl hdrops
        · rw [heffect] at hdrops
          cases hdrops
        · rw [hsuccessor] at hdrops
          cases hdrops
        · exact .inr hdrops
      case isFalse =>
        cases h
        obtain ⟨htarget, hfrozen, hne⟩ := State.successor?_eq_some hsuccessor
        exact mergeInto_moves hmem hlive rfl rfl htarget (live_of_frozen hfrozen) (Ne.symm hne) hfree
    case h_2 =>
      split at h
      case isTrue => cases h
      case isFalse =>
        cases h
        exact put_keep hmem rfl rfl hlive rfl (Round.settled_of_not_requested hfree)

theorem reconcileContact_moves {round : Round} (hmem : round ∈ s.rounds) (hsettled : round.settled)
    {allowed authorized : Bool}
    (h : reconcileContact s round allowed authorized = some s')
    (hdrops : drops = true ∨ allowed = true ∨ round.inputs = []) : Moves drops s.rounds s'.rounds := by
  unfold reconcileContact at h
  split at h
  case isTrue => cases h
  case isFalse hwaits =>
    have hstatus : round.status = .paused := by
      rw [Bool.or_eq_true, Bool.or_eq_true, decide_eq_true_eq, not_or, not_or, ne_eq, Decidable.not_not] at hwaits
      exact hwaits.1.1
    have hlive : round.live = true := by
      unfold Round.live
      rw [hstatus]
      rfl
    have hfree := hsettled.not_requested hlive (by rw [hstatus]; rfl)
    split at h
    case isTrue hdenied =>
      cases h
      refine .single (.drop hmem rfl rfl hlive rfl (Round.settled_of_not_requested hfree) ?_)
      obtain hdrops | hdrops | hdrops := hdrops
      · exact .inl hdrops
      · rw [hdrops] at hdenied
        cases hdenied
      · exact .inr hdrops
    case isFalse =>
      split at h
      case isTrue =>
        cases h
        exact put_keep hmem rfl rfl hlive rfl (Round.settled_of_not_requested hfree)
      case isFalse => cases h

/-- A write that leaves the status. -/
theorem put_same {round next : Round} (hmem : round ∈ s.rounds) (hid : next.id = round.id)
    (hinputs : next.inputs = round.inputs)
    (hstatus : next.status = round.status) (hresolved : next.resolvedByRoundId = round.resolvedByRoundId)
    (hcontact : next.contactAuthorizationPending = round.contactAuthorizationPending) (hsettled : next.settled) :
    Moves drops s.rounds (s.put next).rounds := by
  have hlive : next.live = round.live := congrArg Status.active hstatus
  refine .single (.keep hmem hid hinputs hlive (fun hholds => ?_) hsettled)
  unfold Round.holds at hholds ⊢
  rw [hlive, hstatus, hresolved, hcontact] at hholds
  exact hholds

/-! ### Admission -/

theorem get?_of_mem (hinv : Inv s.rounds) {round : Round} (hmem : round ∈ s.rounds) : s.get? round.id = some round := by
  cases hfound : s.get? round.id with
  | none => exact absurd rfl (get?_eq_none hfound round hmem)
  | some found =>
    obtain ⟨hmem', hid⟩ := State.get?_eq_some hfound
    rw [hinv.eq hmem' hmem hid]

theorem awaitingRound_eq_some {key : Option String} {round : Round} (h : awaitingRound s key = some round) :
    round ∈ s.rounds ∧ round.status = .paused := by
  unfold awaitingRound at h
  have hfound := List.find?_some h
  simp only [Bool.and_eq_true, beq_iff_eq] at hfound
  exact ⟨List.mem_of_find?_eq_some h, hfound.1.1⟩

/-- The round that a message joins is one of the room, as it is or made pending. -/
theorem pendingRound_eq_some {key : Option String} {awaitingContact : Bool} {round : Round}
    (h : pendingRound s key awaitingContact = some round) :
    ∃ old ∈ s.rounds, round.id = old.id ∧ round.inputs = old.inputs ∧ round.controlAction = old.controlAction ∧
      (old.status = .frozen ∨ old.status = .paused) ∧ round.status = if awaitingContact then .paused else .frozen := by
  unfold pendingRound at h
  split at h
  case isTrue hawaiting =>
    obtain ⟨hmem, hstatus⟩ := awaitingRound_eq_some h
    exact ⟨round, hmem, rfl, rfl, rfl, .inr hstatus, by rw [hawaiting]; exact hstatus⟩
  case isFalse hawaiting =>
    rw [Bool.not_eq_true] at hawaiting
    rw [hawaiting]
    split at h
    case h_1 found hfound =>
      cases h
      have hstatus : round.status = .frozen := by simpa using List.find?_some hfound
      exact ⟨round, List.mem_of_find?_eq_some hfound, rfl, rfl, rfl, .inl hstatus, hstatus⟩
    case h_2 =>
      split at h
      case isTrue =>
        obtain ⟨old, hold, rfl⟩ := Option.map_eq_some_iff.mp h
        obtain ⟨hmem, hstatus⟩ := awaitingRound_eq_some hold
        exact ⟨old, hmem, rfl, rfl, rfl, .inr hstatus, rfl⟩
      case isFalse => cases h

/-- What an admission has done when the message joins a round: that round is in the room, no round
has the message, and what waits for an approval was there before. -/
structure Joins (before : List Round) (s : State) (round : Round) (message : Message)
    (awaitingContact : Bool) : Prop where
  old : ∃ old ∈ s.rounds, round.id = old.id ∧ round.inputs = old.inputs ∧ old.live = true
  status : round.status = if awaitingContact then .paused else .frozen
  free : round.requested = false
  new : ∀ other ∈ s.rounds, message ∉ other.messages
  waiting : ∀ other ∈ s.rounds, other.status = .waitingApproval → other ∈ before

theorem live_of_waiting {round : Round} (h : round.status = .frozen ∨ round.status = .paused) : round.live = true := by
  unfold Round.live
  obtain h | h := h <;> rw [h] <;> rfl

theorem live_of_status {round : Round} {awaitingContact : Bool}
    (h : round.status = if awaitingContact then .paused else .frozen) : round.live = true := by
  cases awaitingContact
  · exact live_of_waiting (.inl h)
  · exact live_of_waiting (.inr h)

theorem add_joins {before : List Round} {fresh : Id} {key : Option String} {awaitingContact : Bool} {message : Message}
    (hnew : ∀ other ∈ s.rounds, message ∉ other.messages)
    (hwaiting : ∀ other ∈ s.rounds, other.status = .waitingApproval → other ∈ before) :
    Joins before (s.add (Round.new fresh (if awaitingContact then .paused else .frozen) key awaitingContact))
      (Round.new fresh (if awaitingContact then .paused else .frozen) key awaitingContact) message awaitingContact where
  old := ⟨_, List.mem_append_right _ (List.mem_singleton.mpr rfl), rfl, rfl, live_of_status rfl⟩
  status := rfl
  free := rfl
  new other hother := by
    obtain hother | hother := List.mem_append.mp hother
    · exact hnew other hother
    · rw [List.mem_singleton.mp hother]
      exact List.not_mem_nil
  waiting other hother hstatus := by
    obtain hother | hother := List.mem_append.mp hother
    · exact hwaiting other hother hstatus
    · rw [List.mem_singleton.mp hother] at hstatus
      cases awaitingContact <;> cases hstatus

theorem admissionRound_joins (hinv : Inv s.rounds) {fresh : Id} {message : Message}
    (hfresh : ∀ other ∈ s.rounds, other.id ≠ fresh)
    (hnew : ∀ other ∈ s.rounds, message ∉ other.messages) (key : Option String) (awaitingContact : Bool) :
    Moves drops s.rounds (admissionRound s fresh key awaitingContact).1.rounds ∧
      Joins s.rounds (admissionRound s fresh key awaitingContact).1
      (admissionRound s fresh key awaitingContact).2 message
        awaitingContact := by
  unfold admissionRound
  dsimp only
  split
  case h_1 =>
    refine ⟨.single (.add hfresh rfl (Round.settled_of_not_requested rfl)), add_joins hnew fun other hother _ => hother⟩
  case h_2 round hpending =>
    obtain ⟨old, hold, hid, hinputs, hcontrol, holdStatus, hstatus⟩ := pendingRound_eq_some hpending
    have hlive := live_of_waiting holdStatus
    have hidle : old.status.processing = false := by obtain h | h := holdStatus <;> rw [h] <;> rfl
    have hfree : round.requested = false := by
      unfold Round.requested
      rw [hcontrol]
      exact (hinv.settled old hold).not_requested hlive hidle
    split
    case isTrue =>
      let done : Round := {round.markInputsConsumed with status := .succeeded, deliveryState := .skipped, checkpoint := none}
      have hconsumed : done.inputs = old.markInputsConsumed.inputs := by
        show round.inputs.map _ = old.inputs.map _
        rw [hinputs]
      have hmove : Move drops s.rounds (write s.rounds done) :=
        .consume hold hid hconsumed hlive rfl (Round.settled_of_not_requested hfree)
      have hmem : ∀ {other}, other ∈ write s.rounds done → other = done ∨ other ∈ s.rounds := fun hother =>
        ((mem_write_of_mem hold (show done.id = old.id from hid)).mp hother).imp_right And.left
      refine ⟨.tail (.single hmove) (.add (fun other hother => ?_) rfl (Round.settled_of_not_requested rfl)),
        add_joins (fun other hother => ?_) fun other hother hwaiting => ?_⟩
      · obtain rfl | hother := hmem hother
        · exact fun heq => hfresh old hold (hid.symm.trans heq)
        · exact hfresh other hother
      · obtain rfl | hother := hmem hother
        · unfold Round.messages
          rw [hconsumed]
          exact fun hmessage => hnew old hold ((Round.messages_consumed old) ▸ hmessage)
        · exact hnew other hother
      · obtain rfl | hother := hmem hother
        · cases hwaiting
        · exact hother
    case isFalse =>
      exact ⟨.refl, ⟨old, hold, hid, hinputs, hlive⟩, hstatus, hfree, hnew, fun other hother _ => hother⟩

/-- Superseding one round that waits: a move; the target stays, and so do the rounds that wait still. -/
theorem supersede_moves (hinv : Inv s.rounds) {target previous : Round}
    (htarget : target ∈ s.rounds) (hfrozen : target.status = .frozen)
    (hprevious : previous ∈ s.rounds) (hwaits : previous.status = .waitingApproval ∨ previous.status = .paused)
    (hdrops : drops = true ∨ previous.status = .paused ∨ previous.effectStarted = false ∨ previous.inputs = []) :
    Moves drops s.rounds (supersede target.id s previous).rounds ∧
      (∃ next ∈ (supersede target.id s previous).rounds, next.id = target.id ∧ next.status = .frozen) ∧
      ∀ other ∈ s.rounds, other.id ≠ target.id → other.id ≠ previous.id →
      other ∈ (supersede target.id s previous).rounds := by
  have hne : previous.id ≠ target.id := by
    intro heq
    rw [hinv.eq hprevious htarget heq, hfrozen] at hwaits
    obtain hwaits | hwaits := hwaits <;> cases hwaits
  have hlive : previous.live = true := by
    unfold Round.live
    obtain h | h := hwaits <;> rw [h] <;> rfl
  have hidle : previous.status.processing = false := by obtain h | h := hwaits <;> rw [h] <;> rfl
  have hfree := (hinv.settled previous hprevious).not_requested hlive hidle
  unfold supersede
  rw [get?_of_mem hinv htarget]
  dsimp only
  split
  case isTrue =>
    refine ⟨mergeInto_moves hprevious hlive rfl rfl htarget (live_of_frozen hfrozen) hne hfree, ?_,
      fun other hother hnt hnp => ?_⟩
    · exact ⟨{target with inputs := ({previous with checkpoint := none} : Round).mergedInputs target},
        mem_write.mpr (.inr ⟨mem_write_self htarget rfl, Ne.symm hne⟩), rfl, hfrozen⟩
    · exact mem_write.mpr (.inr ⟨mem_write.mpr (.inr ⟨hother, hnt⟩), hnp⟩)
  case isFalse heffect =>
    rw [Bool.or_eq_true, not_or, beq_iff_eq, Bool.not_eq_true', Bool.not_eq_false] at heffect
    refine ⟨.single (.drop hprevious rfl rfl hlive rfl (Round.settled_of_not_requested hfree) ?_),
      ⟨target, mem_write.mpr (.inr ⟨htarget, Ne.symm hne⟩), rfl, hfrozen⟩, fun other hother _ hnp =>
      mem_write.mpr (.inr ⟨hother, hnp⟩)⟩
    obtain hdrops | hdrops | hdrops | hdrops := hdrops
    · exact .inl hdrops
    · exact absurd hdrops heffect.1
    · rw [heffect.2] at hdrops
      cases hdrops
    · exact .inr hdrops

theorem Moves.inv {rounds rounds' : List Round} (h : Moves drops rounds rounds') (hinv : Inv rounds) : Inv rounds' := by
  induction h with
  | refl => exact hinv
  | tail _ hmove ih => exact hmove.inv ih

theorem supersede_all_moves {target : Id} {waiting : List Round} (hids : (waiting.map (·.id)).Nodup)
    (hinv : Inv s.rounds)
    (htarget : ∃ round ∈ s.rounds, round.id = target ∧ round.status = .frozen)
    (hwaiting : ∀ previous ∈ waiting, previous ∈ s.rounds ∧
      (previous.status = .waitingApproval ∨ previous.status = .paused) ∧
      (drops = true ∨ previous.status = .paused ∨ previous.effectStarted = false ∨ previous.inputs = [])) :
    Moves drops s.rounds (waiting.foldl (supersede target) s).rounds := by
  induction waiting generalizing s with
  | nil => exact .refl
  | cons previous rest ih =>
    obtain ⟨round, hround, rfl, hfrozen⟩ := htarget
    obtain ⟨hprevious, hwaits, hdrops⟩ := hwaiting previous List.mem_cons_self
    obtain ⟨hmoves, hstays, hothers⟩ := supersede_moves hinv hround hfrozen hprevious hwaits hdrops
    rw [List.map_cons, List.nodup_cons] at hids
    refine hmoves.trans (ih hids.2 (hmoves.inv hinv) hstays fun other hother => ?_)
    obtain ⟨hmem, hwaits', hdrops'⟩ := hwaiting other (List.mem_cons_of_mem _ hother)
    refine ⟨hothers other hmem (fun heq => ?_) (fun heq => ?_), hwaits', hdrops'⟩
    · rw [hinv.eq hmem hround heq, hfrozen] at hwaits'
      obtain h | h := hwaits' <;> cases h
    · exact hids.1 (heq ▸ List.mem_map_of_mem hother)

theorem not_admitted {message : Message} (h : admitted s message = false) :
    ∀ other ∈ s.rounds, message ∉ other.messages := by
  intro other hother hmessage
  obtain ⟨input, hinput, heq⟩ := List.mem_map.mp hmessage
  have hadmitted : admitted s message = true :=
    List.any_eq_true.mpr ⟨other, hother, List.any_eq_true.mpr ⟨input, hinput, decide_eq_true heq⟩⟩
  rw [h] at hadmitted
  cases hadmitted

/-- A message that is new joins a live round, and the rounds that wait are superseded. -/
theorem admitMessage_moves (hinv : Inv s.rounds) {message : Message} {fresh : Id}
    {key : Option String} {awaitingContact : Bool}
    (h : admitMessage s message fresh key awaitingContact = some s')
    (hdrops : drops = true ∨ awaitingContact = true ∨ ∀ round ∈ s.rounds, round.status = .waitingApproval →
      round.effectStarted = false ∨ round.inputs = []) :
    ∃ joined, Moves drops s.rounds joined ∧ (∃ round ∈ joined, round.live = true ∧ round.awaits message) ∧
      Moves drops joined s'.rounds := by
  unfold admitMessage at h
  split at h
  case isTrue => cases h
  case isFalse hcan =>
    rw [Bool.or_eq_true, not_or, Bool.not_eq_true, Bool.not_eq_true, Option.isSome_eq_false_iff,
      Option.isNone_iff_eq_none] at hcan
    obtain ⟨hmoves, hjoins⟩ := @admissionRound_joins drops s hinv fresh message
      (get?_eq_none hcan.2) (not_admitted hcan.1) key awaitingContact
    dsimp only at h
    cases hround : admissionRound s fresh key awaitingContact with
    | mk base round =>
    rw [hround] at h hmoves hjoins
    dsimp only at h hmoves hjoins
    obtain ⟨old, hold, hid, hinputs, hlive⟩ := hjoins.old
    have hlive' : (round.append message).live = true := live_of_status hjoins.status
    have hjoin : Move drops base.rounds (write base.rounds (round.append message)) := by
      refine .join hold hid ?_ hlive hlive' (Round.settled_of_not_requested hjoins.free) hjoins.new
      unfold Round.append
      rw [hinputs]
    have hself : round.append message ∈ write base.rounds (round.append message) := mem_write_self hold hid
    refine ⟨write base.rounds (round.append message), hmoves.tail hjoin, ⟨_, hself, hlive', ?_⟩, ?_⟩
    · exact ⟨_, List.mem_append_right _ (List.mem_singleton.mpr rfl), rfl, rfl⟩
    split at h
    case isTrue =>
      cases h
      exact .refl
    case isFalse hcontact =>
      cases h
      rw [Bool.not_eq_true] at hcontact
      have hfrozen : round.status = .frozen := by
        have hstatus := hjoins.status
        rwa [hcontact] at hstatus
      have hinv' : Inv (base.put (round.append message)).rounds := hjoin.inv (hmoves.inv hinv)
      have hrows : (waitingRounds (base.put (round.append message))).Sublist (base.put (round.append message)).rounds :=
        List.filter_sublist
      refine supersede_all_moves ((hrows.map _).nodup hinv'.ids) hinv'
        ⟨_, hself, rfl, hfrozen⟩ fun previous hprevious => ?_
      have hwaits := (List.mem_filter.mp hprevious).2
      simp only [Bool.and_eq_true, Bool.or_eq_true, beq_iff_eq] at hwaits
      refine ⟨hrows.subset hprevious, hwaits.1, ?_⟩
      obtain hdrops | hdrops | hdrops := hdrops
      · exact .inl hdrops
      · rw [hcontact] at hdrops
        cases hdrops
      · obtain hstatus | hstatus := hwaits.1
        · have hwritten : previous = round.append message ∨ (previous ∈ base.rounds ∧ previous.id ≠ old.id) :=
            (@mem_write_of_mem _ old (round.append message) _ hold hid).mp (hrows.subset hprevious)
          obtain rfl | ⟨hmem, -⟩ := hwritten
          · exact absurd (hfrozen.symm.trans hstatus) nofun
          · exact .inr (.inr (hdrops previous (hjoins.waiting previous hmem hstatus) hstatus))
        · exact .inr (.inl hstatus)

/-! ### Runs -/

/-- The step drops inputs that are not consumed: a new message supersedes a round that waits for an approval
after an effect, an approval finds such a round behind another one, or a contact is denied. -/
def dropsInputs (s : State) : Event → Bool
  | .admission _ _ _ awaitingContact => !awaitingContact && s.rounds.any fun round =>
    round.status == .waitingApproval && round.effectStarted && !round.inputs.isEmpty
  | .wake id _ => (s.get? id).any fun round =>
    round.status == .waitingApproval && round.effectStarted && (s.successor? round).isSome && !round.inputs.isEmpty
  | .reconcile id allowed _ => !allowed && (s.get? id).any fun round =>
    round.status == .paused && round.contactAuthorizationPending && !round.inputs.isEmpty
  | _ => false

theorem owned_live {id : Id} {token : Token} {round : Round} (h : s.owned? id token = some round) :
    round ∈ s.rounds ∧ round.live = true ∧ round.status.processing = true := by
  obtain ⟨hget, howned⟩ := State.owned?_eq_some h
  have hprocessing := Round.processing_of_owned howned
  exact ⟨(State.get?_eq_some hget).1, Round.live_of_processing hprocessing, hprocessing⟩

/-- The owner writes its round. -/
theorem put_owned {id : Id} {token : Token} {round next : Round}
    (h : s.owned? id token = some round) (hid : next.id = round.id)
    (hinputs : next.inputs = round.inputs) (hprocessing : next.status.processing = true) :
    Moves drops s.rounds (s.put next).rounds := by
  obtain ⟨hmem, hlive, -⟩ := owned_live h
  exact put_keep hmem hid hinputs hlive (Round.live_of_processing hprocessing) fun _ => .inl hprocessing

/-- What is sent may be sent whatever is requested. -/
theorem Round.settled.sent {round next : Round} (h : round.settled)
    (hcontrol : next.controlAction = round.controlAction)
    (hstatus : next.status = round.status)
    (hsent : [Delivery.sending, .unknown, .delivered].contains next.deliveryState = true) :
    next.settled := by
  intro hrequested
  unfold Round.requested at hrequested
  rw [hcontrol] at hrequested
  obtain hprocessing | ⟨hdead, -⟩ := h hrequested
  · exact .inl (hstatus ▸ hprocessing)
  · exact .inr ⟨(congrArg Status.active hstatus).trans hdead, hsent⟩

theorem claim_moves (hinv : Inv s.rounds) {id : Id} {token : Token} {authorized : Bool}
    (h : apply s (.claim id token authorized) = some s') : Moves drops s.rounds s'.rounds := by
  obtain ⟨round, hget, h⟩ := Option.bind_eq_some_iff.mp h
  have hmem := (State.get?_eq_some hget).1
  split at h
  case isTrue => cases h
  case isFalse hcan =>
    have hfrozen : round.status = .frozen := by
      rw [Bool.or_eq_true, Bool.or_eq_true, decide_eq_true_eq, not_or, not_or, ne_eq, Decidable.not_not] at hcan
      exact hcan.1.1
    have hlive := live_of_frozen hfrozen
    have hfree := (hinv.settled round hmem).not_requested hlive (by rw [hfrozen]; rfl)
    split at h
    case isTrue hempty =>
      cases h
      exact .single (.drop hmem rfl rfl hlive rfl (Round.settled_of_not_requested hfree)
        (.inr (List.isEmpty_iff.mp hempty)))
    case isFalse =>
      cases h
      exact claimRound_moves hmem hlive hfree token authorized

theorem reclaim_moves (hinv : Inv s.rounds) {id : Id} {token : Token} {authorized receipt : Bool}
    (h : apply s (.reclaim id token authorized receipt) = some s') : Moves drops s.rounds s'.rounds := by
  obtain ⟨round, hget, h⟩ := Option.bind_eq_some_iff.mp h
  obtain ⟨hmem, hid⟩ := State.get?_eq_some hget
  split at h
  case isTrue => cases h
  case isFalse hcan =>
    rw [Bool.or_eq_true, not_or, Bool.not_eq_true', Bool.not_eq_false] at hcan
    have hprocessing : round.status.processing = true := (Bool.and_eq_true_iff.mp hcan.1).1
    obtain ⟨hmoves, hagain⟩ := @interruptRound_moves drops s round hmem (Round.live_of_processing hprocessing) receipt
    split at h
    case h_1 s₁ hinterrupt =>
      cases h
      rw [hinterrupt] at hmoves
      exact hmoves
    case h_2 s₁ hinterrupt =>
      rw [hinterrupt] at hmoves hagain
      dsimp only at hmoves hagain
      obtain ⟨next, hnext, hnextid, hfrozen, hfree⟩ := hagain rfl
      obtain ⟨found, hfound, rfl⟩ := Option.map_eq_some_iff.mp h
      obtain ⟨hfoundmem, hfoundid⟩ := State.get?_eq_some hfound
      have heq : found = next := (hmoves.inv hinv).eq hfoundmem hnext (hfoundid.trans (hid.symm.trans hnextid.symm))
      rw [heq]
      exact hmoves.trans (claimRound_moves hnext (live_of_frozen hfrozen) hfree token authorized)

theorem finishNotice_moves (hinv : Inv s.rounds) {round : Round} (hmem : round ∈ s.rounds)
    (result : Except String Unit) :
    Moves drops s.rounds (finishNotice s round result).rounds := by
  unfold finishNotice
  split
  · exact put_same hmem rfl rfl rfl rfl rfl ((hinv.settled round hmem).sent rfl rfl rfl)
  · exact put_same hmem rfl rfl rfl rfl rfl ((hinv.settled round hmem).sent rfl rfl rfl)

theorem wake_moves (hinv : Inv s.rounds) {id : Id} {pending : Bool} (h : apply s (.wake id pending) = some s') :
    Moves (dropsInputs s (.wake id pending)) s.rounds s'.rounds := by
  obtain ⟨round, hget, h⟩ := Option.bind_eq_some_iff.mp h
  have hmem := (State.get?_eq_some hget).1
  refine wakeRound_moves hmem (hinv.settled round hmem) h ?_
  have hstatus : (round.status == Status.waitingApproval) = true := by
    unfold wakeRound at h
    split at h
    case isTrue => cases h
    case isFalse hstatus => exact beq_iff_eq.mpr (Decidable.not_not.mp hstatus)
  unfold dropsInputs
  dsimp only
  rw [hget, Option.any_some, hstatus]
  cases heffect : round.effectStarted with
  | false => exact .inr (.inl rfl)
  | true =>
    cases hsuccessor : s.successor? round with
    | none => exact .inr (.inr (.inl rfl))
    | some successor =>
      cases hinputs : round.inputs with
      | nil => exact .inr (.inr (.inr rfl))
      | cons input rest => exact .inl rfl

theorem reconcile_moves (hinv : Inv s.rounds) {id : Id} {allowed authorized : Bool}
    (h : apply s (.reconcile id allowed authorized) = some s') :
    Moves (dropsInputs s (.reconcile id allowed authorized)) s.rounds s'.rounds := by
  obtain ⟨round, hget, h⟩ := Option.bind_eq_some_iff.mp h
  have hmem := (State.get?_eq_some hget).1
  refine reconcileContact_moves hmem (hinv.settled round hmem) h ?_
  have hwaits : (round.status == Status.paused && round.contactAuthorizationPending) = true := by
    unfold reconcileContact at h
    split at h
    case isTrue => cases h
    case isFalse hwaits =>
      rw [Bool.or_eq_true, Bool.or_eq_true, decide_eq_true_eq, not_or, not_or, ne_eq,
        Decidable.not_not, Bool.not_eq_true',
        Bool.not_eq_false] at hwaits
      rw [hwaits.1.1, hwaits.2]
      rfl
  unfold dropsInputs
  dsimp only
  rw [hget, Option.any_some, hwaits]
  cases allowed with
  | true => exact .inr (.inl rfl)
  | false =>
    cases hinputs : round.inputs with
    | nil => exact .inr (.inr rfl)
    | cons input rest => exact .inl rfl

theorem admit_moves (hinv : Inv s.rounds) {message : Message} {fresh : Id} {key : Option String}
    {awaitingContact : Bool}
    (h : apply s (.admission message fresh key awaitingContact) = some s') :
    ∃ joined, Moves (dropsInputs s (.admission message fresh key awaitingContact)) s.rounds joined ∧
      (∃ round ∈ joined, round.live = true ∧ round.awaits message) ∧
      Moves (dropsInputs s (.admission message fresh key awaitingContact)) joined s'.rounds := by
  refine admitMessage_moves hinv h ?_
  cases hdrops : dropsInputs s (.admission message fresh key awaitingContact) with
  | true => exact .inl rfl
  | false =>
    unfold dropsInputs at hdrops
    rw [Bool.and_eq_false_iff, Bool.not_eq_false'] at hdrops
    obtain hcontact | hnone := hdrops
    · exact .inr (.inl hcontact)
    · refine .inr (.inr fun round hround hstatus => ?_)
      have hround := List.any_eq_false.mp hnone round hround
      rw [hstatus] at hround
      cases heffect : round.effectStarted with
      | false => exact .inl rfl
      | true =>
        rw [heffect] at hround
        exact .inr (by simpa using hround)

/-- Every event moves the rounds, and drops nothing but where it is said to. -/
theorem apply_moves (hinv : Inv s.rounds) {event : Event} (h : apply s event = some s') :
    Moves (dropsInputs s event) s.rounds s'.rounds := by
  cases event with
  | admission message fresh key awaitingContact =>
    obtain ⟨joined, hbefore, -, hafter⟩ := admit_moves hinv h
    exact hbefore.trans hafter
  | claim id token authorized => exact claim_moves hinv h
  | reclaim id token authorized receipt => exact reclaim_moves hinv h
  | start id token =>
    obtain ⟨round, howned, rfl⟩ := Option.map_eq_some_iff.mp h
    exact put_owned howned rfl rfl rfl
  | renew id token =>
    obtain ⟨round, howned, rfl⟩ := Option.map_eq_some_iff.mp h
    exact put_owned howned rfl rfl (owned_live howned).2.2
  | saveCheckpoint id token checkpoint =>
    obtain ⟨round, howned, rfl⟩ := Option.map_eq_some_iff.mp h
    exact put_owned howned rfl rfl (owned_live howned).2.2
  | permit id token authorized =>
    obtain ⟨round, howned, h⟩ := Option.bind_eq_some_iff.mp h
    split at h
    case isTrue => cases h
    case isFalse =>
      cases h
      exact put_owned howned rfl rfl (owned_live howned).2.2
  | complete id token outcome =>
    unfold apply at h
    dsimp only at h
    split at h
    case isTrue => cases h
    case isFalse =>
      obtain ⟨round, howned, rfl⟩ := Option.map_eq_some_iff.mp h
      obtain ⟨hmem, hlive, -⟩ := owned_live howned
      exact completeRound_moves hmem hlive token outcome
  | finishReply id token result =>
    unfold apply at h
    dsimp only at h
    split at h
    case isFalse => cases h
    case isTrue =>
      split at h
      case h_1 round howned =>
        cases h
        obtain ⟨hmem, hlive, -⟩ := owned_live howned
        exact finishReply_moves hmem hlive _
      case h_2 =>
        cases h
        exact .refl
  | fail id token error =>
    obtain ⟨round, howned, rfl⟩ := Option.map_eq_some_iff.mp h
    obtain ⟨hmem, hlive, -⟩ := owned_live howned
    exact failRound_moves hmem hlive _
  | interrupt id token receipt =>
    obtain ⟨round, hget, h⟩ := Option.bind_eq_some_iff.mp h
    split at h
    case isFalse => cases h
    case isTrue hcan =>
      cases h
      have hprocessing : round.status.processing = true := (Bool.and_eq_true_iff.mp hcan).2
      exact (interruptRound_moves (State.get?_eq_some hget).1 (Round.live_of_processing hprocessing) receipt).1
  | control id action expectedAttempt fresh =>
    obtain ⟨round, hget, h⟩ := Option.bind_eq_some_iff.mp h
    have hmem := (State.get?_eq_some hget).1
    exact controlRound_moves hmem (hinv.settled round hmem) h
  | wake id pending => exact wake_moves hinv h
  | reconcile id allowed authorized => exact reconcile_moves hinv h
  | expireNotice id =>
    obtain ⟨round, hget, h⟩ := Option.bind_eq_some_iff.mp h
    have hmem := (State.get?_eq_some hget).1
    split at h
    case isFalse => cases h
    case isTrue =>
      cases h
      exact put_same hmem rfl rfl rfl rfl rfl ((hinv.settled round hmem).sent rfl rfl rfl)
  | claimNotice id token =>
    obtain ⟨round, hget, h⟩ := Option.bind_eq_some_iff.mp h
    have hmem := (State.get?_eq_some hget).1
    split at h
    case isFalse => cases h
    case isTrue =>
      cases h
      exact put_same hmem rfl rfl rfl rfl rfl ((hinv.settled round hmem).sent rfl rfl rfl)
  | deliverNotice id =>
    unfold apply at h
    dsimp only at h
    split at h
    case isFalse => cases h
    case isTrue => split at h <;> cases h <;> exact .refl
  | send sender =>
    have heq : s'.rounds = s.rounds := by
      unfold apply sendNow at h
      dsimp only at h
      split at h
      case isFalse => cases h
      case isTrue => split at h <;> cases h <;> rfl
    rw [heq]
    exact .refl
  | finishNotice id token result =>
    unfold apply at h
    dsimp only at h
    split at h
    case isFalse => cases h
    case isTrue =>
      split at h
      case h_1 round hround =>
        cases h
        exact finishNotice_moves hinv (State.get?_eq_some (Option.filter_eq_some_iff.mp hround).1).1 _
      case h_2 =>
        cases h
        exact .refl
  | tick seconds =>
    cases h
    exact .refl

/-- Nothing was admitted yet. -/
def start (clock : Nat) : State := ⟨[], clock, [], []⟩

theorem start_inv (clock : Nat) : Inv (start clock).rounds where
  ids := List.nodup_nil
  waits _ hround := absurd hround List.not_mem_nil
  alone _ hround := absurd hround List.not_mem_nil
  settled _ hround := absurd hround List.not_mem_nil

/-- The invariant holds after every run. -/
theorem run_inv {events : List Event} (hinv : Inv s.rounds)
    (hrun : Steps (Executes apply) s events s') : Inv s'.rounds :=
  hrun.invariant (P := fun s => Inv s.rounds)
    (fun _ _ _ hinv (hstep : apply _ _ = some _) => (apply_moves hinv hstep).inv hinv) hinv

/-- A message that is accounted for stays so, where no input is dropped. -/
theorem Moves.accounted {rounds rounds' : List Round} (h : Moves false rounds rounds')
    (hinv : Inv rounds) {message : Message}
    (haccounted : Accounted rounds message) : Accounted rounds' message := by
  induction h with
  | refl => exact haccounted
  | tail hbefore hmove ih => exact hmove.accounted (Moves.inv hbefore hinv) ih

/-- A step that drops nothing. -/
abbrev Undropped : State → Event → State → Prop := Guarded (Executes apply) fun s event => dropsInputs s event = false

/-- A message stays accounted for. -/
theorem run_accounted {events : List Event} (hinv : Inv s.rounds)
    (hrun : Steps Undropped s events s') {message : Message}
    (haccounted : Accounted s.rounds message) : Accounted s'.rounds message := by
  have hboth : Inv s'.rounds ∧ Accounted s'.rounds message := by
    refine hrun.invariant (P := fun s => Inv s.rounds ∧ Accounted s.rounds message) ?_ ⟨hinv, haccounted⟩
    rintro s event s' ⟨hinv, haccounted⟩ ⟨hkept, hstep⟩
    have hmoves := apply_moves hinv hstep
    rw [hkept] at hmoves
    exact ⟨hmoves.inv hinv, hmoves.accounted hinv haccounted⟩
  exact hboth.2

/-- An admission accounts for its message. -/
theorem admit_accounted (hinv : Inv s.rounds) {message : Message} {fresh : Id} {key : Option String}
    {awaitingContact : Bool}
    (h : Undropped s (.admission message fresh key awaitingContact) s') : Accounted s'.rounds message := by
  obtain ⟨hkept, hstep⟩ := h
  obtain ⟨joined, hbefore, hjoined, hafter⟩ := admit_moves hinv hstep
  rw [hkept] at hbefore hafter
  exact hafter.accounted (hbefore.inv hinv) (.inl hjoined)

/-- In every run a message waits in one live round at most; where no step drops inputs, each message that was
admitted waits in a live round or was answered. -/
theorem inputs_while_not_dropped (clock : Nat) (events : List Event) (s : State) :
    (Steps (Executes apply) (start clock) events s → ∀ message, ∀ round ∈ s.rounds, ∀ other ∈ s.rounds,
      round.live = true → other.live = true → round.awaits message → other.awaits message → round = other) ∧
    (Steps Undropped (start clock) events s → ∀ message fresh key awaitingContact,
      .admission message fresh key awaitingContact ∈ events → Accounted s.rounds message) := by
  refine ⟨fun hrun message round hround other hother hlive hlive' hawaits hawaits' => ?_,
    fun hrun message fresh key awaitingContact hmem => ?_⟩
  · exact (run_inv (start_inv clock) hrun).alone round hround other hother
      (Round.holds_of_live hlive) (Round.holds_of_live hlive')
      message (Round.mem_messages.mpr (.inl hawaits)) (Round.mem_messages.mpr (.inl hawaits'))
  · obtain ⟨earlier, later, rfl⟩ := List.append_of_mem hmem
    obtain ⟨before, hbefore, hrest⟩ := hrun.split
    have hinv := run_inv (start_inv clock) hbefore.unguard
    cases hrest with
    | cons hadmit hlater =>
      have hinv' := (apply_moves hinv hadmit.2).inv hinv
      exact run_accounted hinv' hlater (admit_accounted hinv hadmit)

/-! Rounds that end with inputs that nobody has. -/

instance (round : Round) (message : Message) : Decidable (round.awaits message) :=
  inferInstanceAs (Decidable (∃ input ∈ round.inputs, _))

instance (round : Round) (message : Message) : Decidable (round.answered message) :=
  inferInstanceAs (Decidable (∃ input ∈ round.inputs, _))

instance (rounds : List Round) (message : Message) : Decidable (Accounted rounds message) :=
  inferInstanceAs (Decidable ((∃ round ∈ rounds, _) ∨ ∃ round ∈ rounds, _))

/-- The turn waits for the approval of a tool. -/
def waits : Outcome := ⟨true, true, false, true⟩

/-- A message is executed up to an effect. -/
def executes : List Event := [.admission 1 10 none false, .claim 10 1 true, .start 10 1, .permit 10 1 true]

/-- A run that leaves a message unaccounted for. -/
theorem lost_of_foldlM {events : List Event}
    (h : (events.foldlM apply (start 0)).any (fun s => decide ¬ Accounted s.rounds 1) = true) :
    ∃ s, Steps (Executes apply) (start 0) events s ∧ ¬ Accounted s.rounds 1 := by
  obtain ⟨s, hrun, hlost⟩ := (Option.any_eq_true _ _).mp h
  exact ⟨s, .of_foldlM hrun, of_decide_eq_true hlost⟩

/-- The request that waits for an approval after an effect is lost with the next message, or with the
approval if the next message came before; a request of a contact is lost with the denial. -/
theorem superseded_request_is_lost :
    (∃ s, Steps (Executes apply) (start 0) (executes ++ [.complete 10 1 waits, .admission 2 11 none false]) s ∧
      ¬ Accounted s.rounds 1) ∧
    (∃ s, Steps (Executes apply) (start 0)
      (executes ++ [.admission 2 11 none false, .complete 10 1 waits, .wake 10 false]) s ∧
      ¬ Accounted s.rounds 1) ∧
    ∃ s, Steps (Executes apply) (start 0) [.admission 1 10 (some "contact") true, .reconcile 10 false false] s ∧
      ¬ Accounted s.rounds 1 :=
  ⟨lost_of_foldlM (by decide +kernel), lost_of_foldlM (by decide +kernel), lost_of_foldlM (by decide +kernel)⟩

end Galaris.Conversation
