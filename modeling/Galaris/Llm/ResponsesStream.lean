import Galaris.Base.Dict
import Galaris.Process.JsonCoding

/-! Function arguments in a stream of Responses events (`llm/responses_stream.py`).

Some providers send the arguments of a function call only when they are done. The stream is relayed frame by
frame; before a frame with the final arguments of a call comes, in a frame of its own, a delta of what its
deltas still lack, and the numbers of the later events are shifted. So who adds up the deltas of a call has
its arguments when they are done (`complete_arguments`). -/
namespace Galaris.Llm.ResponsesStream

open Dict
open Process (Json)

/-- A JSON object. -/
abbrev Entries := List (String × Json)

/-- What `json.loads` answers: a value, or it raises, `JSONDecodeError` or another error (the digits of an integer are
too many, the nesting is too deep). -/
inductive Loaded
  | value (value : Json)
  | malformed
  | raised

/-- `json.loads` and `json.dumps`, which raises nothing where the value is `writable`; what it writes is
read back and does not begin with a blank. `render` is `str` of what is no string. -/
structure Codec where
  loads : String → Loaded
  dumps : Json → String
  writable : Json → Bool
  render : Json → String
  loads_wellFormed : ∀ {text value}, loads text = .value value → value.WellFormed
  loads_dumps : ∀ {value}, value.WellFormed → writable value = true → loads (dumps value) = .value value
  dumps_head : ∀ value, (dumps value).toList.head? ≠ some ' '

/-- `as_dict`. -/
def asDict : Json → Entries
  | .obj entries => entries
  | _ => []

/-- `event.get(key)`. -/
def get (entries : Entries) (key : String) : Json := (entries.lookup key).getD .null

def truthy : Json → Bool
  | .null => false
  | .bool b => b
  | .int n => n != 0
  | .float x => x != 0
  | .str s => s != ""
  | .arr items => !items.isEmpty
  | .obj entries => !entries.isEmpty

/-- `a or b`. -/
def orElse (a b : Json) : Json := if truthy a then a else b

/-- `isinstance(value, int)`; a boolean is an integer. -/
def intOf : Json → Option Int
  | .int n => some n
  | .bool b => some (if b then 1 else 0)
  | _ => none

section Stream
variable (C : Codec)

/-- `str(value)`. -/
def text : Json → String
  | .str s => s
  | value => C.render value

/-! ### Events -/

/-- The type of an object is the string. -/
def hasType (event : Entries) (type : String) : Bool :=
  match get event "type" with
  | .str s => s == type
  | _ => false

def itemOf (event : Entries) : Entries := asDict (get event "item")

def identifier (event : Entries) : String :=
    text C (orElse (orElse (get event "item_id") (get (itemOf event) "id")) (.str ""))

/-- A function call is added. -/
def isAdded (event : Entries) : Bool :=
    hasType event "response.output_item.added" && hasType (itemOf event) "function_call"

def isDelta (event : Entries) : Bool := hasType event "response.function_call_arguments.delta"

/-- The arguments of a function call are done, or the call is. -/
def isDone (event : Entries) : Bool :=
  hasType event "response.function_call_arguments.done" ||
    (hasType event "response.output_item.done" && hasType (itemOf event) "function_call")

/-- The response is over. -/
def isTerminal (event : Entries) : Bool :=
  hasType event "response.completed" || hasType event "response.incomplete" ||
    hasType event "response.failed" || hasType event "error"

/-- The type cannot be looked up in a set. -/
def unhashable (event : Entries) : Bool :=
  match get event "type" with
  | .arr _ | .obj _ => true
  | _ => false

/-- The arguments that a call is added with. -/
def initialOf (event : Entries) : String := text C (orElse (get (itemOf event) "arguments") (.str ""))

def deltaOf (event : Entries) : String := text C (orElse (get event "delta") (.str ""))

/-- The arguments of a done event, where they are a string. -/
def finalOf (event : Entries) : Option String :=
  match if hasType event "response.function_call_arguments.done" then get event "arguments"
      else get (itemOf event) "arguments" with
  | .str s => some s
  | _ => none

/-! ### Completion -/

/-- `_FunctionArguments`. -/
structure State where
  arguments : List (String × String) := []
  inserted : Nat := 0

/-- The delta that `complete` returns. -/
def deltaEvent (id : String) (index : Json) (suffix : String) : Entries :=
  [("type", .str "response.function_call_arguments.delta"), ("item_id", .str id),
    ("output_index", index), ("delta", .str suffix)]

/-- `complete`; `none` raises. -/
def complete (s : State) (event : Entries) : Option (State × Option Entries) :=
  let id := identifier C event
  if isAdded event then some ({s with arguments := put id (initialOf C event) s.arguments}, none)
  else if isDelta event then
    match s.arguments.lookup id with
    | some emitted => some ({s with arguments := put id (emitted ++ deltaOf C event) s.arguments}, none)
    | none => some (s, none)
  else if isDone event then
    match s.arguments.lookup id, finalOf event with
    | some emitted, some final =>
      if emitted.toList.isPrefixOf final.toList then
        let suffix := String.ofList (final.toList.drop emitted.toList.length)
        some ({s with arguments := put id final s.arguments},
          if suffix = "" then none else some (deltaEvent id ((event.lookup "output_index").getD (.int 0)) suffix))
      else none
    | _, _ => some (s, none)
  else if unhashable event then none
  else if isTerminal event then some ({s with arguments := []}, none)
  else some (s, none)

/-! ### Frames -/

/-- The lines of a frame, the empty line that ends it included. -/
abbrev Frame := List String

def isData (line : String) : Bool := "data:".toList.isPrefixOf line.toList

/-- The data of a frame. -/
def dataOf (lines : Frame) : String :=
  "\n".intercalate ((lines.filter isData).map fun line => String.ofList ((line.toList.drop 5).dropWhile (· == ' ')))

/-- The event of a frame, where there is one. -/
def eventOf (lines : Frame) : Option Entries :=
  match C.loads (dataOf lines) with
  | .value (.obj event) => some event
  | _ => none

/-- The data cannot be read, by another error than that of a text which is no JSON. -/
def unreadable (lines : Frame) : Bool :=
  match C.loads (dataOf lines) with
  | .raised => true
  | _ => false

def sequenceOf (event : Entries) : Option Int := intOf (get event "sequence_number")

/-- `event["sequence_number"] = n`. -/
def numbered (event : Entries) (n : Int) : Entries := put "sequence_number" (.int n) event

def dataLine (event : Entries) : String := "data: " ++ C.dumps (.obj event)

/-- The lines of a frame without data. -/
def others (lines : Frame) : Frame := lines.filter fun line => !isData line

/-- The lines of a frame, with another event. -/
def withEvent (lines : Frame) (event : Entries) : Frame :=
  let kept := others lines
  if kept.getLast? = some "" then kept.dropLast ++ [dataLine C event, ""] else kept ++ [dataLine C event]

/-- `json.dumps` raises nothing. -/
def writes (event : Entries) : Bool := C.writable (.obj event)

/-- The event with the number that it gets. -/
def renumbered (event : Entries) (inserted : Nat) : Option Entries :=
  match sequenceOf event with
  | some n => if inserted = 0 then none else some (numbered event (n + inserted))
  | none => none

/-- What is relayed for a frame: the event that is inserted before it, and its lines; `none` raises. -/
def framed (s : State) (lines : Frame) : Option (State × Option Entries × Frame) :=
  if unreadable C lines then none
  else match eventOf C lines with
  | none => some (s, none, lines)
  | some event => (complete C s event).bind fun (s, extra) =>
    let inserted := s.inserted + if extra.isSome then 1 else 0
    let extra := extra.map fun extra => numbered extra ((sequenceOf event).getD 0 + s.inserted)
    if extra.all (writes C) && (renumbered event inserted).all (writes C) then
      some ({s with inserted := inserted}, extra, (renumbered event inserted).elim lines (withEvent C lines))
    else none

def extraFrame (extra : Entries) : Frame := ["event: response.function_call_arguments.delta", dataLine C extra, ""]

/-- `frame`. -/
def frame (s : State) (lines : Frame) : Option (State × List String) :=
  (framed C s lines).map fun (s, extra, lines) => (s, extra.elim [] (extraFrame C) ++ lines)

/-- The frames of a stream of lines: an empty line ends a frame. -/
def framesOf : List String → List Frame
  | [] => []
  | line :: rest =>
    if line = "" then [line] :: framesOf rest
    else match framesOf rest with
      | [] => [[line]]
      | first :: frames => (line :: first) :: frames

/-- The lines that are yielded for frames, and whether the stream comes to its end. -/
def relay (s : State) : List Frame → List String × Bool
  | [] => ([], true)
  | lines :: rest =>
    match frame C s lines with
    | none => ([], false)
    | some (s, yielded) => (yielded ++ (relay s rest).1, (relay s rest).2)

/-- `complete_function_argument_deltas`. -/
def completeFunctionArgumentDeltas (lines : List String) : List String × Bool := relay C {} (framesOf lines)

variable {C}

/-! ### The frames of the lines -/

/-- An empty line ends the frame, and is the only one. -/
def Ended (lines : Frame) : Prop := ∃ body, "" ∉ body ∧ lines = body ++ [""]

/-- Every frame is ended, but for the last one perhaps. -/
def Frames : List Frame → Prop
  | [] => True
  | lines :: rest => (Ended lines ∨ (rest = [] ∧ lines ≠ [] ∧ "" ∉ lines)) ∧ Frames rest

theorem framesOf_cons_ne {line : String} (h : line ≠ "") (rest : List String) :
    framesOf (line :: rest) = match framesOf rest with
      | [] => [[line]]
      | first :: frames => (line :: first) :: frames := if_neg h

/-- A stream is cut into frames that are empty nowhere else than at their ends. -/
theorem frames_framesOf (lines : List String) : Frames (framesOf lines) := by
  induction lines with
  | nil => trivial
  | cons line rest ih =>
    by_cases hempty : line = ""
    · rw [framesOf, if_pos hempty]
      exact ⟨.inl ⟨[], List.not_mem_nil, by rw [hempty]; rfl⟩, ih⟩
    · rw [framesOf_cons_ne hempty]
      cases hrest : framesOf rest with
      | nil =>
        refine ⟨.inr ⟨rfl, List.cons_ne_nil _ _, fun h => ?_⟩, trivial⟩
        exact hempty (List.mem_singleton.mp h).symm
      | cons first frames =>
        rw [hrest] at ih
        obtain ⟨hfirst, hframes⟩ := ih
        refine ⟨?_, hframes⟩
        have hcons : ∀ {body : List String}, "" ∉ body → "" ∉ line :: body := fun hbody h =>
          (List.mem_cons.mp h).elim (fun heq => hempty heq.symm) hbody
        obtain ⟨body, hbody, rfl⟩ | ⟨hlast, -, hopen⟩ := hfirst
        · exact .inl ⟨line :: body, hcons hbody, rfl⟩
        · exact .inr ⟨hlast, List.cons_ne_nil _ _, hcons hopen⟩

/-- The first frame ends with the first empty line. -/
theorem framesOf_append {lines : Frame} (h : Ended lines) (rest : List String) :
    framesOf (lines ++ rest) = lines :: framesOf rest := by
  obtain ⟨body, hbody, rfl⟩ := h
  induction body with
  | nil => exact if_pos rfl
  | cons line body ih =>
    rw [List.mem_cons, not_or] at hbody
    rw [List.cons_append, List.cons_append, framesOf_cons_ne (Ne.symm hbody.1), ih hbody.2]

/-- Lines without end are one frame. -/
theorem framesOf_open {lines : Frame} (hne : lines ≠ []) (h : "" ∉ lines) : framesOf lines = [lines] := by
  induction lines with
  | nil => exact absurd rfl hne
  | cons line rest ih =>
    rw [List.mem_cons, not_or] at h
    rw [framesOf_cons_ne (Ne.symm h.1)]
    cases rest with
    | nil => rfl
    | cons next rest => rw [ih (List.cons_ne_nil _ _) h.2]

/-- Frames are read as they were written. -/
theorem framesOf_flatten {frames : List Frame} (h : Frames frames) : framesOf frames.flatten = frames := by
  induction frames with
  | nil => rfl
  | cons lines rest ih =>
    obtain ⟨hlines, hrest⟩ := h
    rw [List.flatten_cons]
    obtain hended | ⟨rfl, hne, hopen⟩ := hlines
    · rw [framesOf_append hended, ih hrest]
    · rw [List.flatten_nil, List.append_nil, framesOf_open hne hopen]

/-- Frames that have ended may be followed by more. -/
theorem Frames.append {frames more : List Frame} (hended : ∀ lines ∈ frames, Ended lines)
    (h : Frames more) : Frames (frames ++ more) := by
  induction frames with
  | nil => exact h
  | cons lines rest ih =>
    rw [List.forall_mem_cons] at hended
    exact ⟨.inl hended.1, ih hended.2⟩

/-! ### Relayed frames -/

theorem isData_empty : isData "" = false := by decide

theorem isData_dataLine (event : Entries) : isData (dataLine C event) = true := by
  rw [isData, dataLine, String.toList_append, List.isPrefixOf_iff_prefix]
  exact ⟨' ' :: (C.dumps (.obj event)).toList, rfl⟩

theorem dataLine_ne (event : Entries) : dataLine C event ≠ "" := fun h => by
  have hdata := isData_dataLine (C := C) event
  rw [h, isData_empty] at hdata
  cases hdata

/-- The data line of an event is read back. -/
theorem dropped_dataLine (event : Entries) :
    String.ofList (((dataLine C event).toList.drop 5).dropWhile (· == ' ')) = C.dumps (.obj event) := by
  have hhead := C.dumps_head (.obj event)
  have hdrop : (dataLine C event).toList.drop 5 = ' ' :: (C.dumps (.obj event)).toList := by
    rw [dataLine, String.toList_append]
    rfl
  rw [hdrop, List.dropWhile_cons_of_pos (by decide)]
  cases hdumps : (C.dumps (.obj event)).toList with
  | nil => rw [List.dropWhile_nil, ← hdumps, String.ofList_toList]
  | cons c rest =>
    rw [hdumps] at hhead
    have hc : ¬(c == ' ') = true := fun heq => hhead (congrArg some (eq_of_beq heq))
    have hkept : (c :: rest).dropWhile (· == ' ') = c :: rest := List.dropWhile_cons_of_neg hc
    rw [hkept, ← hdumps, String.ofList_toList]

/-- A frame with one line of data carries the event that was written there. -/
theorem eventOf_of_data {lines : Frame} {event : Entries}
    (h : lines.filter isData = [dataLine C event]) (hformed : (Json.obj event).WellFormed)
    (hwrites : writes C event = true) : eventOf C lines = some event := by
  have hdata : dataOf lines = C.dumps (.obj event) := by
    rw [dataOf, h, List.map_singleton, dropped_dataLine]
    rfl
  rw [eventOf, hdata, C.loads_dumps hformed hwrites]

theorem eventOf_wellFormed {lines : Frame} {event : Entries} (h : eventOf C lines = some event) :
    (Json.obj event).WellFormed := by
  unfold eventOf at h
  split at h
  case h_1 loaded hloads =>
    cases h
    exact C.loads_wellFormed hloads
  case h_2 => cases h

theorem others_data (lines : Frame) : (others lines).filter isData = [] :=
  List.filter_eq_nil_iff.mpr fun line hline => by simpa using (List.mem_filter.mp hline).2

theorem others_append (a b : Frame) : others (a ++ b) = others a ++ others b := List.filter_append ..

theorem others_others (lines : Frame) : others (others lines) = others lines := by
  unfold others
  rw [List.filter_filter]
  simp only [Bool.and_self]

theorem others_dataLine (event : Entries) (rest : Frame) : others (dataLine C event :: rest) = others rest := by
  refine List.filter_cons_of_neg ?_
  rw [isData_dataLine]
  exact Bool.false_ne_true

theorem others_empty (rest : Frame) : others ("" :: rest) = "" :: others rest := by
  refine List.filter_cons_of_pos ?_
  rw [isData_empty]
  rfl

theorem not_mem_others {lines : Frame} {line : String} (h : line ∉ lines) : line ∉ others lines :=
    fun hmem => h (List.mem_filter.mp hmem).1

/-- What a frame becomes with another event. -/
theorem withEvent_cases (C : Codec) (lines : Frame) (event : Entries) :
    (∃ body, others lines = body ++ [""] ∧ withEvent C lines event = body ++ [dataLine C event, ""]) ∨
      ((others lines).getLast? ≠ some "" ∧ withEvent C lines event = others lines ++ [dataLine C event]) := by
  unfold withEvent
  dsimp only
  split
  case isTrue hlast => exact .inl ⟨_, (List.dropLast_append_getLast? "" hlast).symm, rfl⟩
  case isFalse hlast => exact .inr ⟨hlast, rfl⟩

theorem withEvent_data (C : Codec) (lines : Frame) (event : Entries) :
    (withEvent C lines event).filter isData = [dataLine C event] := by
  have hothers := others_data lines
  obtain ⟨body, hbody, heq⟩ | ⟨-, heq⟩ := withEvent_cases C lines event
  · rw [hbody, List.filter_append] at hothers
    rw [heq, List.filter_append, (List.append_eq_nil_iff.mp hothers).1, List.filter_cons_of_pos (isData_dataLine event),
      List.filter_cons_of_neg (by rw [isData_empty]; exact Bool.false_ne_true), List.filter_nil, List.nil_append]
  · rw [heq, List.filter_append, hothers, List.filter_cons_of_pos (isData_dataLine event),
      List.filter_nil, List.nil_append]

/-- The other lines of the frame stay. -/
theorem withEvent_others (C : Codec) (lines : Frame) (event : Entries) :
    others (withEvent C lines event) = others lines := by
  have hagain := others_others lines
  obtain ⟨body, hbody, heq⟩ | ⟨-, heq⟩ := withEvent_cases C lines event
  · rw [hbody, others_append] at hagain
    rw [heq, others_append, others_dataLine, hagain, hbody]
  · rw [heq, others_append, others_dataLine, hagain]
    exact List.append_nil _

/-- The event that is put in a frame is read from it again. -/
theorem eventOf_withEvent {lines : Frame} {event : Entries} (h : (Json.obj event).WellFormed)
    (hwrites : writes C event = true) :
    eventOf C (withEvent C lines event) = some event :=
  eventOf_of_data (withEvent_data C lines event) h hwrites

/-- A frame that carries an event is read without raising. -/
theorem readable_of_event {lines : Frame} {event : Entries} (h : eventOf C lines = some event) :
    unreadable C lines = false := by
  unfold eventOf at h
  rw [unreadable]
  split at h
  case h_1 hloads => rw [hloads]
  case h_2 => cases h

theorem not_mem_dataLine {body : Frame} (h : "" ∉ body) (event : Entries) :
    "" ∉ body ++ [dataLine C event] := fun hmem => by
  obtain hmem | hmem := List.mem_append.mp hmem
  · exact h hmem
  · exact dataLine_ne event (List.mem_singleton.mp hmem).symm

/-- A frame keeps its end when its event is replaced. -/
theorem ended_withEvent {lines : Frame} (h : Ended lines) (event : Entries) : Ended (withEvent C lines event) := by
  obtain ⟨body, hbody, rfl⟩ := h
  have hothers : others (body ++ [""]) = others body ++ [""] := by
    rw [others_append, others_empty]
    rfl
  obtain ⟨kept, hkept, heq⟩ | ⟨hlast, -⟩ := withEvent_cases C (body ++ [""]) event
  · obtain ⟨rfl, -⟩ := List.append_inj' (hkept.symm.trans hothers) rfl
    exact ⟨_, not_mem_dataLine (not_mem_others hbody) event, by rw [heq, List.append_assoc]; rfl⟩
  · refine absurd ?_ hlast
    rw [hothers, List.getLast?_append, List.getLast?_singleton]
    rfl

/-- A frame without end has none when its event is replaced. -/
theorem open_withEvent {lines : Frame} (h : "" ∉ lines) (event : Entries) :
    withEvent C lines event ≠ [] ∧ "" ∉ withEvent C lines event := by
  have hothers := not_mem_others h
  obtain ⟨body, hbody, -⟩ | ⟨-, heq⟩ := withEvent_cases C lines event
  · rw [hbody] at hothers
    exact absurd (List.mem_append_right _ (List.mem_singleton_self _)) hothers
  · rw [heq]
    exact ⟨List.append_ne_nil_of_right_ne_nil _ (List.cons_ne_nil _ _), not_mem_dataLine hothers event⟩

theorem ended_extraFrame (extra : Entries) : Ended (extraFrame C extra) := by
  have hhead : "" ∉ ["event: response.function_call_arguments.delta"] := by decide
  exact ⟨_, not_mem_dataLine hhead extra, rfl⟩

theorem eventOf_extraFrame {extra : Entries} (h : (Json.obj extra).WellFormed) (hwrites : writes C extra = true) :
    eventOf C (extraFrame C extra) = some extra := by
  refine eventOf_of_data ?_ h hwrites
  rw [extraFrame, List.filter_cons_of_neg (by decide), List.filter_cons_of_pos (isData_dataLine extra),
    List.filter_cons_of_neg (by rw [isData_empty]; exact Bool.false_ne_true), List.filter_nil]

/-! ### Events and their numbers -/

/-- A new number changes nothing but the number. -/
theorem get_numbered {key : String} (h : key ≠ "sequence_number") (event : Entries) (n : Int) :
    get (numbered event n) key = get event key := by
  rw [get, numbered, lookup_put_ne h, get]

theorem sequenceOf_numbered (event : Entries) (n : Int) : sequenceOf (numbered event n) = some n := by
  rw [sequenceOf, get, numbered, lookup_put_self]
  rfl

theorem hasType_numbered (event : Entries) (n : Int) (type : String) :
    hasType (numbered event n) type = hasType event type := by
  rw [hasType, hasType, get_numbered (by decide)]

theorem itemOf_numbered (event : Entries) (n : Int) : itemOf (numbered event n) = itemOf event := by
  rw [itemOf, itemOf, get_numbered (by decide)]

/-- An object has one type. -/
theorem hasType_unique {event : Entries} {type type' : String} (h : hasType event type = true)
    (hne : type ≠ type') : hasType event type' = false := by
  unfold hasType at h ⊢
  cases htype : get event "type" with
  | str s =>
    rw [htype] at h
    rw [eq_of_beq h]
    exact beq_false_of_ne hne
  | _ => rfl

theorem wellFormed_iff {event : Entries} : (Json.obj event).WellFormed ↔ (event.map (·.1)).Nodup ∧
    ∀ entry ∈ event, entry.2.WellFormed := by
  rw [Json.WellFormed, Json.wellFormedEntries_iff]
  exact and_congr_right fun _ => ⟨fun h entry hentry => h entry.1 entry.2 hentry, fun h key x hx => h (key, x) hx⟩

/-- Events stay well formed with a new number. -/
theorem wellFormed_numbered {event : Entries} (h : (Json.obj event).WellFormed) (n : Int) :
    (Json.obj (numbered event n)).WellFormed := by
  obtain ⟨hkeys, hvalues⟩ := wellFormed_iff.mp h
  refine wellFormed_iff.mpr ⟨nodup_put hkeys _ _, fun entry hentry => ?_⟩
  obtain heq | hold := mem_put hentry
  · rw [heq]
    trivial
  · exact hvalues entry hold

/-- The deltas that are inserted are well formed. -/
theorem wellFormed_deltaEvent {event : Entries} (h : (Json.obj event).WellFormed) (id suffix : String) :
    (Json.obj (deltaEvent id ((event.lookup "output_index").getD (.int 0)) suffix)).WellFormed := by
  have hindex : ((event.lookup "output_index").getD (.int 0)).WellFormed := by
    cases hlookup : event.lookup "output_index" with
    | none => trivial
    | some index => exact (wellFormed_iff.mp h).2 _ (mem_of_lookup hlookup)
  refine wellFormed_iff.mpr ⟨by simp [deltaEvent], fun entry hentry => ?_⟩
  simp only [deltaEvent, List.mem_cons, List.not_mem_nil, or_false] at hentry
  obtain rfl | rfl | rfl | rfl := hentry
  · trivial
  · trivial
  · exact hindex
  · trivial

/-! ### What the deltas add up to -/

/-- What is known of the arguments of each call. -/
abbrev Held := String → Option String

/-- An added call begins with its arguments, a delta goes on with them, and the end of the response ends them. -/
def gather (C : Codec) (held : Held) (event : Entries) : Held :=
  if isAdded event then Function.update held (identifier C event) (some (initialOf C event))
  else if isDelta event then Function.update held (identifier C event)
    ((held (identifier C event)).map (· ++ deltaOf C event))
  else if isTerminal event then fun _ => none
  else held

def gathered (C : Codec) (events : List Entries) : Held := events.foldl (gather C) fun _ => none

/-- Where a call is done, its arguments are what is known of them. -/
def Settled (C : Codec) (held : Held) (event : Entries) : Prop :=
  ∀ final known, isDone event = true → finalOf event = some final →
    held (identifier C event) = some known → known = final

section Numbers
variable (event : Entries) (n : Int)

theorem identifier_numbered : identifier C (numbered event n) = identifier C event := by
  rw [identifier, identifier, itemOf_numbered, get_numbered (by decide)]

theorem isDone_numbered : isDone (numbered event n) = isDone event := by
  simp only [isDone, hasType_numbered, itemOf_numbered]

theorem finalOf_numbered : finalOf (numbered event n) = finalOf event := by
  have hget : get (numbered event n) "arguments" = get event "arguments" := get_numbered (by decide) event n
  simp only [finalOf, hasType_numbered, itemOf_numbered, hget]

/-- What is known of a call does not depend on the numbers. -/
theorem gather_numbered (held : Held) : gather C held (numbered event n) = gather C held event := by
  have hadded : isAdded (numbered event n) = isAdded event := by simp only [isAdded, hasType_numbered, itemOf_numbered]
  have hinitial : initialOf C (numbered event n) = initialOf C event := by rw [initialOf, initialOf, itemOf_numbered]
  have hdelta : isDelta (numbered event n) = isDelta event := hasType_numbered event n _
  have hdeltaOf : deltaOf C (numbered event n) = deltaOf C event := by rw [deltaOf, deltaOf, get_numbered (by decide)]
  have hterminal : isTerminal (numbered event n) = isTerminal event := by simp only [isTerminal, hasType_numbered]
  rw [gather, gather, hadded, hinitial, hdelta, hdeltaOf, hterminal, identifier_numbered]

theorem settled_numbered (held : Held) : Settled C held (numbered event n) ↔ Settled C held event := by
  simp only [Settled, isDone_numbered, finalOf_numbered, identifier_numbered]

end Numbers

/-- A done event tells nothing of its own. -/
theorem gather_done {held : Held} {event : Entries} (h : isDone event = true) : gather C held event = held := by
  have hother : ∀ type, type ≠ "response.function_call_arguments.done" →
      type ≠ "response.output_item.done" → hasType event type = false := by
    intro type hdone hitem
    rw [isDone, Bool.or_eq_true, Bool.and_eq_true] at h
    obtain h | ⟨h, -⟩ := h
    · exact hasType_unique h hdone.symm
    · exact hasType_unique h hitem.symm
  rw [gather, isAdded, isDelta, isTerminal, hother _ (by decide) (by decide),
    hother _ (by decide) (by decide), hother _ (by decide) (by decide),
    hother _ (by decide) (by decide), hother _ (by decide) (by decide), hother _ (by decide) (by decide)]
  rfl

theorem isDelta_deltaEvent (id : String) (index : Json) (suffix : String) :
    isDelta (deltaEvent id index suffix) = true := rfl

/-- An inserted delta adds its text to what is known. -/
theorem gather_deltaEvent (held : Held) (id : String) (index : Json) (suffix : String) :
    gather C held (deltaEvent id index suffix) = Function.update held id ((held id).map (· ++ suffix)) := by
  have hid : identifier C (deltaEvent id index suffix) = id := by
    by_cases hempty : id = ""
    · subst hempty
      rfl
    · show text C (orElse (orElse (.str id) .null) (.str "")) = id
      have htruthy : truthy (.str id) = true := bne_iff_ne.mpr hempty
      rw [orElse, orElse, if_pos htruthy, if_pos htruthy]
      rfl
  have hdelta : deltaOf C (deltaEvent id index suffix) = suffix := by
    show text C (orElse (.str suffix) (.str "")) = suffix
    unfold orElse
    split
    case isTrue => rfl
    case isFalse hfalsy =>
      have hempty : suffix = "" := by
        by_contra hne
        exact hfalsy (bne_iff_ne.mpr hne)
      rw [hempty]
      rfl
  have hadded : isAdded (deltaEvent id index suffix) = false := rfl
  rw [gather, hadded, isDelta_deltaEvent, if_neg Bool.false_ne_true, if_pos rfl, hid, hdelta]

/-- The arguments that are kept are what is known of the calls. -/
def Tracks (s : State) (held : Held) : Prop := ∀ id, s.arguments.lookup id = held id

/-- The map follows what is known of a call. -/
theorem Tracks.put {s : State} {held : Held} (h : Tracks s held) (id : String) (value : String) :
    Tracks {s with arguments := put id value s.arguments} (Function.update held id (some value)) := by
  intro k
  rw [lookup_put, Function.update_apply, h k]

/-- What has been emitted, and the rest, are the final arguments. -/
theorem append_suffix {emitted final : String} (h : emitted.toList <+: final.toList) :
    emitted ++ String.ofList (final.toList.drop emitted.toList.length) = final := by
  obtain ⟨more, hmore⟩ := h
  refine String.toList_injective ?_
  rw [String.toList_append, String.toList_ofList, ← hmore, List.drop_left]

theorem isDone_other {event : Entries} (h : isAdded event = true ∨ isDelta event = true) : isDone event = false := by
  have hother : ∀ type, type ≠ "response.function_call_arguments.done" →
      type ≠ "response.output_item.done" → hasType event type = true → isDone event = false := by
    intro type hdone hitem htype
    rw [isDone, hasType_unique htype hdone, hasType_unique htype hitem]
    rfl
  obtain hadded | hdelta := h
  · exact hother _ (by decide) (by decide) (Bool.and_eq_true_iff.mp hadded).1
  · exact hother _ (by decide) (by decide) hdelta

/-- What `complete` answers for an event. -/
theorem complete_spec {s s' : State} {held : Held} {event : Entries} {extra : Option Entries} (h : Tracks s held)
    (hcomplete : complete C s event = some (s', extra)) : s'.inserted = s.inserted ∧
      ((extra = none ∧ Tracks s' (gather C held event) ∧ Settled C held event) ∨
        ∃ suffix, extra = some (deltaEvent (identifier C event)
          ((event.lookup "output_index").getD (.int 0)) suffix) ∧ isDone event = true ∧
          Tracks s' (gather C held (deltaEvent (identifier C event)
            ((event.lookup "output_index").getD (.int 0)) suffix)) ∧
          Settled C (gather C held (deltaEvent (identifier C event)
              ((event.lookup "output_index").getD (.int 0)) suffix)) event) := by
  have hsettled : isDone event = false → Settled C held event := fun hdone final known hisDone => by
    rw [hdone] at hisDone
    cases hisDone
  unfold complete at hcomplete
  dsimp only at hcomplete
  split at hcomplete
  case isTrue hadded =>
    cases hcomplete
    refine ⟨rfl, .inl ⟨rfl, ?_, hsettled (isDone_other (.inl hadded))⟩⟩
    rw [gather, if_pos hadded]
    exact h.put _ _
  case isFalse hadded =>
    split at hcomplete
    case isTrue hdelta =>
      have hgather : gather C held event = Function.update held (identifier C event)
          ((held (identifier C event)).map (· ++ deltaOf C event)) := by
        rw [gather, if_neg hadded, if_pos hdelta]
      split at hcomplete
      case h_1 emitted hemitted =>
        cases hcomplete
        refine ⟨rfl, .inl ⟨rfl, ?_, hsettled (isDone_other (.inr hdelta))⟩⟩
        rw [hgather, ← h, hemitted]
        exact h.put _ _
      case h_2 hnone =>
        cases hcomplete
        refine ⟨rfl, .inl ⟨rfl, ?_, hsettled (isDone_other (.inr hdelta))⟩⟩
        rw [hgather, ← h, hnone]
        intro k
        rw [Function.update_apply]
        split
        case isTrue hk => rw [hk, hnone]; rfl
        case isFalse => exact h k
    case isFalse hdelta =>
      split at hcomplete
      case isTrue hdone =>
        split at hcomplete
        case h_1 emitted final hemitted hfinal =>
          split at hcomplete
          case isTrue hprefix =>
            have hwhole := append_suffix (List.isPrefixOf_iff_prefix.mp hprefix)
            generalize String.ofList (final.toList.drop emitted.toList.length) = suffix at hcomplete hwhole
            have hheld : held (identifier C event) = some emitted := (h _).symm.trans hemitted
            cases hcomplete
            refine ⟨rfl, ?_⟩
            split
            case isTrue hempty =>
              have hsame : emitted = final := by rw [← hwhole, hempty, String.append_empty]
              refine .inl ⟨rfl, ?_, fun final' known _ hfinal' hknown => ?_⟩
              · rw [gather_done hdone, ← hsame]
                intro k
                rw [lookup_put]
                split
                case isTrue hk => rw [hk, hheld]
                case isFalse => exact h k
              · rw [hheld] at hknown
                rw [hfinal] at hfinal'
                cases hknown
                cases hfinal'
                exact hsame
            case isFalse =>
              have hgather : gather C held (deltaEvent (identifier C event)
                  ((event.lookup "output_index").getD (.int 0)) suffix) =
                  Function.update held (identifier C event) (some final) := by
                rw [gather_deltaEvent, hheld, Option.map_some, hwhole]
              refine .inr ⟨suffix, rfl, hdone, ?_, fun final' known _ hfinal' hknown => ?_⟩
              · rw [hgather]
                exact h.put _ _
              · rw [hgather, Function.update_self] at hknown
                rw [hfinal] at hfinal'
                cases hknown
                cases hfinal'
                rfl
          case isFalse => cases hcomplete
        case h_2 hneither =>
          cases hcomplete
          refine ⟨rfl, .inl ⟨rfl, ?_, fun final known _ hfinal hknown => ?_⟩⟩
          · rw [gather_done hdone]
            exact h
          · rw [← h] at hknown
            exact (hneither known final hknown hfinal).elim
      case isFalse hdone =>
        have hnotSettled := hsettled (Bool.eq_false_iff.mpr hdone)
        split at hcomplete
        case isTrue => cases hcomplete
        case isFalse =>
          split at hcomplete
          case isTrue hterminal =>
            cases hcomplete
            refine ⟨rfl, .inl ⟨rfl, ?_, hnotSettled⟩⟩
            rw [gather, if_neg hadded, if_neg hdelta, if_pos hterminal]
            exact fun _ => rfl
          case isFalse hterminal =>
            cases hcomplete
            refine ⟨rfl, .inl ⟨rfl, ?_, hnotSettled⟩⟩
            rw [gather, if_neg hadded, if_neg hdelta, if_neg hterminal]
            exact h

/-! ### What is relayed -/

/-- A frame is relayed with its event, but for the number; its other lines stay, and it is ended where it was. -/
structure Relayed (C : Codec) (lines relayed : Frame) : Prop where
  others : others relayed = others lines
  event : eventOf C relayed = eventOf C lines ∨ ∃ event n, eventOf C lines = some event ∧
    eventOf C relayed = some (numbered event n)
  unread : eventOf C lines = none → relayed = lines

/-- The events of the frames that are relayed for one. -/
def eventsOf (C : Codec) (piece : Option Entries × Frame) : List Entries := piece.1.toList ++ (eventOf C piece.2).toList

/-- A frame without event is relayed as it is. -/
theorem framed_of_unread {s s' : State} {lines relayed : Frame} {extra : Option Entries}
    (hnone : eventOf C lines = none)
    (hframed : framed C s lines = some (s', extra, relayed)) : s' = s ∧ extra = none ∧ relayed = lines := by
  rw [framed, hnone] at hframed
  split at hframed
  · cases hframed
  · cases hframed
    exact ⟨rfl, rfl, rfl⟩

/-- What a frame with an event becomes. -/
theorem framed_cases {s s' : State} {lines relayed : Frame} {extra : Option Entries}
    {event : Entries} (hevent : eventOf C lines = some event)
    (hframed : framed C s lines = some (s', extra, relayed)) : ∃ s₁ extra₁, complete C s event = some (s₁, extra₁) ∧
      s' = {s₁ with inserted := s₁.inserted + if extra₁.isSome then 1 else 0} ∧
      extra = extra₁.map (fun extra => numbered extra ((sequenceOf event).getD 0 + s₁.inserted)) ∧
        (∀ e ∈ extra, writes C e = true) ∧
      ((sequenceOf event = none ∨ s'.inserted = 0) ∧ relayed = lines ∨
        ∃ n, sequenceOf event = some n ∧ relayed = withEvent C lines (numbered event (n + s'.inserted)) ∧
          writes C (numbered event (n + s'.inserted)) = true) := by
  rw [framed, readable_of_event hevent, if_neg Bool.false_ne_true, hevent] at hframed
  obtain ⟨⟨s₁, extra₁⟩, hcomplete, heq⟩ := Option.bind_eq_some_iff.mp hframed
  obtain ⟨hwrites, heq⟩ := Option.ite_none_right_eq_some.mp heq
  obtain ⟨hextra, hevent'⟩ := Bool.and_eq_true_iff.mp hwrites
  cases heq
  refine ⟨s₁, extra₁, hcomplete, rfl, rfl, fun e he => ?_, ?_⟩
  · rw [Option.mem_def.mp he] at hextra
    exact hextra
  · rw [renumbered] at hevent' ⊢
    cases hsequence : sequenceOf event with
    | none => exact .inl ⟨.inl rfl, rfl⟩
    | some n =>
      rw [hsequence] at hevent'
      dsimp only at hevent' ⊢
      by_cases hinserted : s₁.inserted + (if extra₁.isSome then 1 else 0) = 0
      · rw [if_pos hinserted]
        exact .inl ⟨.inr hinserted, rfl⟩
      · rw [if_neg hinserted] at hevent' ⊢
        exact .inr ⟨n, rfl, rfl, hevent'⟩

/-- The event of a frame is relayed, with another number perhaps. -/
theorem eventOf_relayed {lines relayed : Frame} {event : Entries} (hevent : eventOf C lines = some event)
    (h : relayed = lines ∨ ∃ n, relayed = withEvent C lines (numbered event n) ∧ writes C (numbered event n) = true) :
    eventOf C relayed = some event ∨ ∃ n, eventOf C relayed = some (numbered event n) := by
  obtain rfl | ⟨n, rfl, hwrites⟩ := h
  · exact .inl hevent
  · exact .inr ⟨n, eventOf_withEvent (wellFormed_numbered (eventOf_wellFormed hevent) n) hwrites⟩

/-- What one frame becomes. -/
theorem framed_spec {s s' : State} {held : Held} {lines relayed : Frame} {extra : Option Entries} (h : Tracks s held)
    (hframed : framed C s lines = some (s', extra, relayed)) :
    Tracks s' ((eventsOf C (extra, relayed)).foldl (gather C) held) ∧ Relayed C lines relayed ∧
      (∀ extra' ∈ extra, isDelta extra' = true ∧ (Json.obj extra').WellFormed ∧ writes C extra' = true) ∧
      (∀ event ∈ eventOf C relayed, Settled C (extra.toList.foldl (gather C) held) event) ∧
      (Ended lines → Ended relayed) ∧ (lines ≠ [] → "" ∉ lines → relayed ≠ [] ∧ "" ∉ relayed) := by
  cases hevent : eventOf C lines with
  | none =>
    obtain ⟨rfl, rfl, rfl⟩ := framed_of_unread hevent hframed
    refine ⟨?_, ⟨rfl, .inl rfl, fun _ => rfl⟩, nofun, fun event hmem => ?_, id, fun hne hopen => ⟨hne, hopen⟩⟩
    · rw [eventsOf, hevent]
      exact h
    · rw [hevent] at hmem
      cases hmem
  | some event =>
    obtain ⟨s₁, extra₁, hcomplete, rfl, rfl, hwrites, hrelayed⟩ := framed_cases hevent hframed
    have hlines : relayed = lines ∨ ∃ n, relayed = withEvent C lines (numbered event n) ∧
        writes C (numbered event n) = true :=
      hrelayed.imp And.right fun ⟨n, _, heq⟩ => ⟨_, heq⟩
    have hread := eventOf_relayed hevent hlines
    -- The relayed event says what the event says.
    obtain ⟨event', hevent', hgather, hsettled⟩ : ∃ event', eventOf C relayed = some event' ∧
      (∀ held, gather C held event' = gather C held event) ∧
        ∀ held, Settled C held event → Settled C held event' := by
      obtain hsame | ⟨n, hnumbered⟩ := hread
      · exact ⟨event, hsame, fun _ => rfl, fun _ => id⟩
      · exact ⟨_, hnumbered, gather_numbered event n, fun held => (settled_numbered event n held).mpr⟩
    have hkept : Relayed C lines relayed := by
      refine ⟨?_, hread.imp (fun hsame => hsame.trans hevent.symm) fun ⟨n, hnumbered⟩ =>
        ⟨event, n, hevent, hnumbered⟩, fun hnone => ?_⟩
      · obtain rfl | ⟨n, rfl, -⟩ := hlines
        · rfl
        · exact withEvent_others C lines _
      · rw [hevent] at hnone
        cases hnone
    have hended : Ended lines → Ended relayed := by
      obtain rfl | ⟨n, rfl, -⟩ := hlines
      · exact id
      · exact fun hended => ended_withEvent hended _
    have hopen : lines ≠ [] → "" ∉ lines → relayed ≠ [] ∧ "" ∉ relayed := by
      obtain rfl | ⟨n, rfl, -⟩ := hlines
      · exact fun hne hopen => ⟨hne, hopen⟩
      · exact fun _ hopen => open_withEvent hopen _
    obtain ⟨-, ⟨rfl, htracks, hdone⟩ | ⟨suffix, rfl, hisDone, htracks, hdone⟩⟩ := complete_spec h hcomplete
    · refine ⟨?_, hkept, nofun, fun e he => ?_, hended, hopen⟩
      · rw [eventsOf, hevent']
        show Tracks _ (gather C held event')
        rw [hgather]
        exact htracks
      · rw [hevent'] at he
        cases he
        exact hsettled held hdone
    · refine ⟨?_, hkept, fun extra' hextra => ?_, fun e he => ?_, hended, hopen⟩
      · rw [eventsOf, hevent']
        show Tracks _ (gather C (gather C held (numbered _ _)) event')
        rw [hgather, gather_numbered, gather_done hisDone]
        exact htracks
      · have hwritten := hwrites extra' hextra
        cases hextra
        exact ⟨(hasType_numbered _ _ _).trans rfl,
          wellFormed_numbered (wellFormed_deltaEvent (eventOf_wellFormed hevent) _ _) _, hwritten⟩
      · rw [hevent'] at he
        cases he
        rw [Option.map_some, Option.toList_some, List.foldl_cons, List.foldl_nil, gather_numbered]
        exact hsettled _ hdone

/-! ### The stream -/

/-- What is relayed for the frames: for each the event that is inserted before it, and its lines. -/
def pieces (C : Codec) (s : State) : List Frame → List (Option Entries × Frame)
  | [] => []
  | lines :: rest =>
    match framed C s lines with
    | none => []
    | some (s, piece) => piece :: pieces C s rest

/-- The state after the frames, where none raises. -/
def stateAfter (C : Codec) (s : State) : List Frame → Option State
  | [] => some s
  | lines :: rest => (framed C s lines).bind fun result => stateAfter C result.1 rest

/-- The frames of a piece. -/
def framesOfPiece (C : Codec) (piece : Option Entries × Frame) : List Frame :=
    (piece.1.map (extraFrame C)).toList ++ [piece.2]

/-- A frame that is accepted is relayed before the others. -/
theorem pieces_cons {s s' : State} {lines : Frame} {piece : Option Entries × Frame}
    (h : framed C s lines = some (s', piece)) (rest : List Frame) :
    pieces C s (lines :: rest) = piece :: pieces C s' rest := by
  rw [pieces, h]

/-- What is relayed are the pieces, until a frame raises. -/
theorem relay_eq (C : Codec) (s : State) (frames : List Frame) :
    relay C s frames = (((pieces C s frames).flatMap (framesOfPiece C)).flatten, (stateAfter C s frames).isSome) := by
  induction frames generalizing s with
  | nil => rfl
  | cons lines rest ih =>
    rw [relay, pieces, stateAfter, frame]
    cases hframed : framed C s lines with
    | none => rfl
    | some result =>
      obtain ⟨s', extra, relayed⟩ := result
      simp only [Option.map_some, Option.bind_some, ih]
      cases extra with
      | none => simp [framesOfPiece]
      | some extra => simp [framesOfPiece]

/-- The state after two pieces of a stream is that after the second, from the first. -/
theorem stateAfter_append (C : Codec) (s : State) (a b : List Frame) :
    stateAfter C s (a ++ b) = (stateAfter C s a).bind fun s => stateAfter C s b := by
  induction a generalizing s with
  | nil => rfl
  | cons lines rest ih =>
    rw [List.cons_append, stateAfter, stateAfter]
    cases framed C s lines with
    | none => rfl
    | some result => exact ih result.1

/-- The pieces of a stream that is cut in two come one after the other. -/
theorem pieces_append (C : Codec) (s : State) (a b : List Frame) :
    pieces C s (a ++ b) = pieces C s a ++ (stateAfter C s a).elim [] fun s => pieces C s b := by
  induction a generalizing s with
  | nil => rfl
  | cons lines rest ih =>
    rw [List.cons_append, pieces, pieces, stateAfter]
    cases framed C s lines with
    | none => rfl
    | some result => exact congrArg (result.2 :: ·) (ih result.1)

/-- Each event is settled by those before it. -/
def SettledAll (C : Codec) (held : Held) : List Entries → Prop
  | [] => True
  | event :: rest => Settled C held event ∧ SettledAll C (gather C held event) rest

/-- Calls are settled in a list of events where they are in both its parts. -/
theorem settledAll_append {held : Held} {a b : List Entries} :
    SettledAll C held (a ++ b) ↔ SettledAll C held a ∧ SettledAll C (a.foldl (gather C) held) b := by
  induction a generalizing held with
  | nil => simp [SettledAll]
  | cons event rest ih => rw [List.cons_append, SettledAll, SettledAll, ih, and_assoc, List.foldl_cons]

theorem settled_of_delta {held : Held} {event : Entries} (h : isDelta event = true) :
    Settled C held event := fun final known hdone => by
  rw [isDone, hasType_unique h (by decide), hasType_unique h (by decide)] at hdone
  cases hdone

/-- What a stream of frames becomes, from what is known of its calls. -/
structure Streamed (C : Codec) (s : State) (held : Held) (frames : List Frame) : Prop where
  relayed : List.Forall₂ (Relayed C) (frames.take (pieces C s frames).length) ((pieces C s frames).map (·.2))
  deltas : ∀ piece ∈ pieces C s frames, ∀ extra ∈ piece.1, isDelta extra = true ∧
    (Json.obj extra).WellFormed ∧ writes C extra = true
  tracks : ∀ s', stateAfter C s frames = some s' →
    Tracks s' (((pieces C s frames).flatMap (eventsOf C)).foldl (gather C) held)
  settled : SettledAll C held ((pieces C s frames).flatMap (eventsOf C))
  wellFramed : Frames ((pieces C s frames).flatMap (framesOfPiece C))
  whole : (stateAfter C s frames).isSome = true → (pieces C s frames).length = frames.length

theorem frames_piece {extra : Option Entries} {relayed : Frame} {more : List Frame}
    (hrelayed : Ended relayed) (h : Frames more) :
    Frames (framesOfPiece C (extra, relayed) ++ more) := by
  refine Frames.append (fun lines hlines => ?_) h
  obtain hextra | hlast := List.mem_append.mp hlines
  · obtain ⟨extra', -, rfl⟩ := Option.map_eq_some_iff.mp (Option.mem_toList.mp hextra)
    exact ended_extraFrame extra'
  · exact List.mem_singleton.mp hlast ▸ hrelayed

/-- What is relayed of any frames settles every call. -/
theorem streamed {s : State} {held : Held} {frames : List Frame} (h : Tracks s held)
    (hframes : Frames frames) : Streamed C s held frames := by
  induction frames generalizing s held with
  | nil => exact ⟨.nil, nofun, fun s' hs' => Option.some_inj.mp hs' ▸ h, trivial, trivial, fun _ => rfl⟩
  | cons lines rest ih =>
    cases hframed : framed C s lines with
    | none =>
      have hpieces : pieces C s (lines :: rest) = [] := by rw [pieces, hframed]
      have hstate : stateAfter C s (lines :: rest) = none := by rw [stateAfter, hframed]; rfl
      refine ⟨?_, ?_, ?_, ?_, ?_, ?_⟩ <;> rw [hpieces]
      · exact .nil
      · exact nofun
      · exact fun s' hs' => nomatch hstate.symm.trans hs'
      · trivial
      · trivial
      · rw [hstate]
        exact nofun
    | some result =>
      obtain ⟨s₁, extra, relayed⟩ := result
      obtain ⟨htracks, hrelayed, hdeltas, hsettled, hended, hopen⟩ := framed_spec h hframed
      have hrest := ih htracks hframes.2
      have hpieces := pieces_cons hframed rest
      have hstate : stateAfter C s (lines :: rest) = stateAfter C s₁ rest := by rw [stateAfter, hframed]; rfl
      refine ⟨?_, ?_, fun s' hs' => ?_, ?_, ?_, ?_⟩ <;> rw [hpieces]
      · exact .cons hrelayed hrest.relayed
      · exact List.forall_mem_cons.mpr ⟨hdeltas, hrest.deltas⟩
      · rw [List.flatMap_cons, List.foldl_append]
        exact hrest.tracks s' (hstate ▸ hs')
      · rw [List.flatMap_cons, settledAll_append]
        refine ⟨?_, hrest.settled⟩
        rw [eventsOf, settledAll_append]
        constructor
        · cases extra with
          | none => trivial
          | some extra => exact ⟨settled_of_delta (hdeltas extra rfl).1, trivial⟩
        · cases hevent : eventOf C relayed with
          | none => trivial
          | some event => exact ⟨hsettled event hevent, trivial⟩
      · rw [List.flatMap_cons]
        obtain hline | ⟨rfl, hne, hlast⟩ := hframes.1
        · exact frames_piece (hended hline) hrest.wellFramed
        · obtain ⟨hne, hlast⟩ := hopen hne hlast
          have hlastFrame : Frames [relayed] := ⟨.inr ⟨rfl, hne, hlast⟩, trivial⟩
          show Frames (((extra.map (extraFrame C)).toList ++ [relayed]) ++ [])
          rw [List.append_nil]
          refine Frames.append (fun lines hlines => ?_) hlastFrame
          obtain ⟨extra', -, rfl⟩ := Option.map_eq_some_iff.mp (Option.mem_toList.mp hlines)
          exact ended_extraFrame extra'
      · rw [hstate]
        exact fun hsome => congrArg Nat.succ (hrest.whole hsome)

theorem tracks_initial : Tracks {} fun _ => none := fun _ => rfl

/-- The frames of what is relayed are those of its pieces. -/
theorem framesOf_relay (C : Codec) {frames : List Frame} (h : Frames frames) :
    framesOf (relay C {} frames).1 = (pieces C {} frames).flatMap (framesOfPiece C) := by
  rw [relay_eq, framesOf_flatten (streamed tracks_initial h).wellFramed]

/-- The events of the frames that are relayed are those of the pieces. -/
theorem eventsOf_pieces {pieces : List (Option Entries × Frame)}
    (h : ∀ piece ∈ pieces, ∀ extra ∈ piece.1, (Json.obj extra).WellFormed ∧ writes C extra = true) :
    (pieces.flatMap (framesOfPiece C)).filterMap (eventOf C) = pieces.flatMap (eventsOf C) := by
  induction pieces with
  | nil => rfl
  | cons piece rest ih =>
    rw [List.forall_mem_cons] at h
    obtain ⟨extra, relayed⟩ := piece
    have hrelayed : [relayed].filterMap (eventOf C) = (eventOf C relayed).toList := by
      cases hevent : eventOf C relayed with
      | none => rw [List.filterMap_cons_none hevent]; rfl
      | some event => rw [List.filterMap_cons_some hevent]; rfl
    rw [List.flatMap_cons, List.flatMap_cons, List.filterMap_append, ih h.2]
    congr 1
    rw [framesOfPiece, List.filterMap_append, hrelayed, eventsOf]
    cases extra with
    | none => rfl
    | some extra =>
      have hextra := eventOf_extraFrame (C := C) (h.1 extra rfl).1 (h.1 extra rfl).2
      rw [Option.map_some, Option.toList_some, List.filterMap_cons_some hextra, List.filterMap_nil]
      rfl

/-- The events of a stream of lines. -/
def events (C : Codec) (lines : List String) : List Entries := (framesOf lines).filterMap (eventOf C)

def numbers (C : Codec) (lines : List String) : List Int := (events C lines).filterMap sequenceOf

/-- The events of the output are those of its pieces. -/
theorem events_relay (C : Codec) {frames : List Frame} (h : Frames frames) :
    events C (relay C {} frames).1 = (pieces C {} frames).flatMap (eventsOf C) := by
  rw [events, framesOf_relay C h, eventsOf_pieces fun piece hpiece extra hextra =>
    ((streamed tracks_initial h).deltas piece hpiece extra hextra).2]

/-! ### Errors -/

/-- The final arguments of a call do not go on from what is known of them. -/
def Contradicts (C : Codec) (held : Held) (event : Entries) : Prop :=
  isDone event = true ∧ ∃ final known, finalOf event = some final ∧
    held (identifier C event) = some known ∧ ¬known.toList <+: final.toList

/-- What raises: data that cannot be read, a contradiction, and a type that cannot be looked up. -/
def Raises (C : Codec) (held : Held) (lines : Frame) : Prop :=
  unreadable C lines = true ∨ ∃ event, eventOf C lines = some event ∧
    (Contradicts C held event ∨ unhashable event = true)

/-- The event of the frame, or a delta before it, cannot be written with its number. -/
def Unwritable (C : Codec) (lines : Frame) : Prop :=
  ∃ event entries n, eventOf C lines = some event ∧ (entries = event ∨ isDelta entries = true) ∧
    writes C (numbered entries n) = false

theorem hashable_of_type {event : Entries} {type : String} (h : hasType event type = true) :
    unhashable event = false := by
  unfold hasType at h
  rw [unhashable]
  split at h
  case h_1 htype => rw [htype]
  case h_2 => cases h

theorem hashable_of_done {event : Entries} (h : isDone event = true) : unhashable event = false := by
  obtain h | h := (Bool.or_eq_true _ _).mp h
  · exact hashable_of_type h
  · exact hashable_of_type ((Bool.and_eq_true _ _).mp h).1

/-- `complete` raises where the arguments contradict, or the type is no hashable value. -/
theorem complete_eq_none {s : State} {held : Held} {event : Entries} (h : Tracks s held) :
    complete C s event = none ↔ Contradicts C held event ∨ unhashable event = true := by
  by_cases hdone : isDone event = true
  · have hadded : ¬isAdded event = true := fun hadded => by
      rw [isDone_other (.inl hadded)] at hdone
      cases hdone
    have hdelta : ¬isDelta event = true := fun hdelta => by
      rw [isDone_other (.inr hdelta)] at hdone
      cases hdone
    rw [hashable_of_done hdone, or_iff_left Bool.false_ne_true]
    unfold complete
    dsimp only
    rw [if_neg hadded, if_neg hdelta, if_pos hdone, h]
    split
    case h_1 known final hknown hfinal =>
      split
      case isTrue hprefix =>
        refine ⟨nofun, fun ⟨_, final', known', hfinal', hknown', hcontradicts⟩ => ?_⟩
        rw [hfinal] at hfinal'
        rw [hknown] at hknown'
        cases hfinal'
        cases hknown'
        exact absurd (List.isPrefixOf_iff_prefix.mp hprefix) hcontradicts
      case isFalse hprefix =>
        exact ⟨fun _ => ⟨hdone, final, known, hfinal, hknown,
          fun hgoes => hprefix (List.isPrefixOf_iff_prefix.mpr hgoes)⟩, fun _ => rfl⟩
    case h_2 hneither =>
      exact ⟨nofun, fun ⟨_, final, known, hfinal, hknown, _⟩ => (hneither known final hknown hfinal).elim⟩
  · rw [or_iff_right fun hcontradicts : Contradicts C held event => hdone hcontradicts.1]
    unfold complete
    dsimp only
    rw [if_neg hdone]
    split
    case isTrue hadded =>
      exact ⟨nofun,
        fun h => by rw [hashable_of_type ((Bool.and_eq_true _ _).mp hadded).1] at h; cases h⟩
    case isFalse =>
      split
      case isTrue hdelta =>
        have hhashable := hashable_of_type hdelta
        refine ⟨fun hnone => ?_, fun h => by rw [hhashable] at h; cases h⟩
        split at hnone <;> cases hnone
      case isFalse =>
        split
        case isTrue hunhashable => exact ⟨fun _ => hunhashable, fun _ => rfl⟩
        case isFalse hhashable =>
          refine ⟨fun hnone => ?_, fun h => absurd h hhashable⟩
          split at hnone <;> cases hnone

/-- A frame that raises is not relayed. -/
theorem framed_of_raises {s : State} {held : Held} {lines : Frame} (h : Tracks s held)
    (hraises : Raises C held lines) : framed C s lines = none := by
  rw [framed]
  obtain hunreadable | ⟨event, hevent, hraises⟩ := hraises
  · rw [if_pos hunreadable]
  · rw [readable_of_event hevent, if_neg Bool.false_ne_true, hevent]
    dsimp only
    rw [(complete_eq_none h).mpr hraises, Option.bind_none]

/-- What is inserted is a delta. -/
theorem isDelta_extra {s s' : State} {event extra : Entries}
    (h : complete C s event = some (s', some extra)) : isDelta extra = true := by
  obtain ⟨-, ⟨hnone, -⟩ | ⟨suffix, hsome, -⟩⟩ := complete_spec (C := C) (fun _ => rfl) h
  · cases hnone
  · cases hsome
    rfl

theorem renumbered_eq_some {event new : Entries} {inserted : Nat}
    (h : renumbered event inserted = some new) : ∃ n, new = numbered event n := by
  rw [renumbered] at h
  split at h
  case h_2 => cases h
  case h_1 n hn =>
    split at h
    · cases h
    · cases h
      exact ⟨_, rfl⟩

/-- Nothing else raises but what cannot be written. -/
theorem framed_eq_none {s : State} {held : Held} {lines : Frame} (h : Tracks s held) (hnone : framed C s lines = none) :
    Raises C held lines ∨ Unwritable C lines := by
  by_cases hunreadable : unreadable C lines = true
  · exact .inl (.inl hunreadable)
  · rw [framed, if_neg hunreadable] at hnone
    cases hevent : eventOf C lines with
    | none =>
      rw [hevent] at hnone
      cases hnone
    | some event =>
      rw [hevent] at hnone
      dsimp only at hnone
      cases hcomplete : complete C s event with
      | none => exact .inl (.inr ⟨event, hevent, (complete_eq_none h).mp hcomplete⟩)
      | some result =>
        obtain ⟨s', extra⟩ := result
        rw [hcomplete, Option.bind_some] at hnone
        have hrefused := Bool.eq_false_iff.mpr fun hwrites => Option.some_ne_none _ (ite_eq_right_iff.mp hnone hwrites)
        right
        obtain hextra | hevent' := Bool.and_eq_false_iff.mp hrefused
        · cases extra with
          | none => cases hextra
          | some delta => exact ⟨event, delta, _, hevent, .inr (isDelta_extra hcomplete), hextra⟩
        · cases hnew : renumbered event (s'.inserted + if extra.isSome then 1 else 0) with
          | none =>
            rw [hnew] at hevent'
            cases hevent'
          | some new =>
            rw [hnew] at hevent'
            obtain ⟨n, rfl⟩ := renumbered_eq_some hnew
            exact ⟨event, event, n, hevent, .inl rfl, hevent'⟩

/-- The stream raises at the first frame that does. -/
theorem stateAfter_eq_none {s : State} {frames : List Frame} (h : stateAfter C s frames = none) :
    ∃ before lines after s', frames = before ++ lines :: after ∧ stateAfter C s before = some s' ∧
    framed C s' lines = none := by
  induction frames generalizing s with
  | nil => cases h
  | cons lines rest ih =>
    cases hframed : framed C s lines with
    | none => exact ⟨[], lines, rest, s, rfl, rfl, hframed⟩
    | some result =>
      rw [stateAfter, hframed, Option.bind_some] at h
      obtain ⟨before, next, after, s', rfl, hbefore, hnone⟩ := ih h
      refine ⟨lines :: before, next, after, s', rfl, ?_, hnone⟩
      rw [stateAfter, hframed, Option.bind_some, hbefore]

theorem Frames.left {a b : List Frame} (h : Frames (a ++ b)) : Frames a := by
  induction a with
  | nil => trivial
  | cons lines rest ih =>
    obtain ⟨hlines, hrest⟩ := h
    exact ⟨hlines.imp_right fun ⟨hnil, hopen⟩ => ⟨(List.append_eq_nil_iff.mp hnil).1, hopen⟩, ih hrest⟩

/-- Nothing is relayed from a frame on that raises. -/
theorem relay_of_none {before after : List Frame} {lines : Frame}
    (h : ∀ s, stateAfter C {} before = some s → framed C s lines = none) :
    relay C {} (before ++ lines :: after) = ((relay C {} before).1, false) := by
  rw [relay_eq, relay_eq, pieces_append, stateAfter_append]
  cases hstate : stateAfter C {} before with
  | none => simp
  | some s => simp [pieces, stateAfter, h s hstate]

/-- The relay stops before the frame that raises. -/
theorem relay_of_raises {before after : List Frame} {lines : Frame} (hframes : Frames (before ++ lines :: after))
    (h : Raises C (gathered C (events C (relay C {} before).1)) lines) :
    relay C {} (before ++ lines :: after) = ((relay C {} before).1, false) := by
  have hbefore := streamed (C := C) tracks_initial hframes.left
  rw [events_relay C hframes.left] at h
  exact relay_of_none fun s hstate => framed_of_raises (hbefore.tracks s hstate) h

/-! ### The numbers of the events -/

theorem complete_inserted {s s' : State} {event : Entries} {extra : Option Entries}
    (h : complete C s event = some (s', extra)) :
    s'.inserted = s.inserted :=
  (complete_spec (fun _ => rfl) h).1

/-- The frames that an event is inserted before have a number. -/
def Numbered (C : Codec) (pieces : List (Option Entries × Frame)) : Prop :=
  ∀ piece ∈ pieces, piece.1.isSome = true → ∃ event ∈ eventOf C piece.2, (sequenceOf event).isSome = true

/-- The numbers of what a frame becomes. -/
theorem framed_numbers {s s' : State} {lines relayed : Frame} {extra : Option Entries}
    {event : Entries} (hevent : eventOf C lines = some event)
    (hframed : framed C s lines = some (s', extra, relayed))
    (hnumbered : extra.isSome = true → ∃ event ∈ eventOf C relayed, (sequenceOf event).isSome = true) :
    (sequenceOf event = none ∧ s'.inserted = s.inserted ∧ (eventsOf C (extra, relayed)).filterMap sequenceOf = []) ∨
      ∃ m, sequenceOf event = some m ∧
        ((s'.inserted = s.inserted ∧ (eventsOf C (extra, relayed)).filterMap sequenceOf = [m + s.inserted]) ∨
          (s'.inserted = s.inserted + 1 ∧ (eventsOf C (extra, relayed)).filterMap sequenceOf =
            [m + s.inserted, m + s.inserted + 1])) := by
  obtain ⟨s₁, extra₁, hcomplete, rfl, rfl, -, hrelayed⟩ := framed_cases hevent hframed
  have hinserted := complete_inserted hcomplete
  cases hsequence : sequenceOf event with
  | none =>
    refine .inl ⟨rfl, ?_⟩
    have hsame : relayed = lines := by
      obtain ⟨-, rfl⟩ | ⟨n, hn, -, -⟩ := hrelayed
      · rfl
      · rw [hsequence] at hn
        cases hn
    subst hsame
    -- No event is inserted before one without a number.
    have hextra : extra₁ = none := by
      cases extra₁ with
      | none => rfl
      | some extra =>
        obtain ⟨event', hevent', hsome⟩ := hnumbered rfl
        rw [hevent] at hevent'
        cases hevent'
        rw [hsequence] at hsome
        cases hsome
    subst hextra
    refine ⟨hinserted, ?_⟩
    rw [Option.map_none, eventsOf, hevent]
    exact List.filterMap_cons_none hsequence
  | some m =>
    refine .inr ⟨m, rfl, ?_⟩
    have hread : ∃ event', eventOf C relayed = some event' ∧
        sequenceOf event' = some (m + (s₁.inserted + if extra₁.isSome then 1 else 0 : Nat)) := by
      obtain ⟨hzero, rfl⟩ | ⟨n, hn, rfl, hwrites⟩ := hrelayed
      · have hzero := hzero.resolve_left (by rw [hsequence]; exact Option.some_ne_none m)
        dsimp only at hzero
        refine ⟨event, hevent, ?_⟩
        rw [hsequence, hzero]
        exact congrArg some (Int.add_zero m).symm
      · rw [hsequence] at hn
        cases hn
        exact ⟨_, eventOf_withEvent (wellFormed_numbered (eventOf_wellFormed hevent) _) hwrites,
          sequenceOf_numbered _ _⟩
    obtain ⟨event', hevent', hsequence'⟩ := hread
    rw [eventsOf, hevent', Option.toList_some, List.filterMap_append,
      List.filterMap_cons_some hsequence', List.filterMap_nil, hinserted]
    cases extra₁ with
    | none => exact .inl ⟨rfl, rfl⟩
    | some extra =>
      refine .inr ⟨rfl, ?_⟩
      rw [Option.map_some, Option.toList_some, List.filterMap_cons_some (sequenceOf_numbered _ _),
        Option.getD_some, Int.add_assoc]
      rfl

/-- The numbers of the output grow where those of the input do. -/
theorem numbers_pieces {s : State} {frames : List Frame} (hnumbered : Numbered C (pieces C s frames))
    (hsorted : ((frames.filterMap (eventOf C)).filterMap sequenceOf).Pairwise (· < ·)) :
    (((pieces C s frames).flatMap (eventsOf C)).filterMap sequenceOf).Pairwise (· < ·) ∧
      ∀ low, (∀ n ∈ (frames.filterMap (eventOf C)).filterMap sequenceOf, low ≤ n) →
        ∀ n ∈ ((pieces C s frames).flatMap (eventsOf C)).filterMap sequenceOf, low + s.inserted ≤ n := by
  induction frames generalizing s with
  | nil => exact ⟨.nil, nofun⟩
  | cons lines rest ih =>
    cases hframed : framed C s lines with
    | none =>
      rw [pieces, hframed]
      exact ⟨.nil, nofun⟩
    | some result =>
      obtain ⟨s', extra, relayed⟩ := result
      rw [pieces_cons hframed] at hnumbered ⊢
      obtain ⟨hfirst, hlater⟩ := List.forall_mem_cons.mp hnumbered
      rw [List.flatMap_cons, List.filterMap_append]
      cases hevent : eventOf C lines with
      | none =>
        obtain ⟨rfl, rfl, rfl⟩ := framed_of_unread hevent hframed
        rw [List.filterMap_cons_none hevent] at hsorted ⊢
        rw [eventsOf, hevent]
        exact ih hlater hsorted
      | some event =>
        rw [List.filterMap_cons_some hevent] at hsorted ⊢
        obtain ⟨hsequence, hinserted, hnumbers⟩ | ⟨m, hsequence, hnumbers⟩ := framed_numbers hevent hframed hfirst
        · rw [List.filterMap_cons_none hsequence] at hsorted ⊢
          rw [hnumbers, ← hinserted]
          exact ih hlater hsorted
        · rw [List.filterMap_cons_some hsequence] at hsorted ⊢
          obtain ⟨hm, hsorted⟩ := List.pairwise_cons.mp hsorted
          obtain ⟨hrest, hlow⟩ := ih hlater hsorted
          have habove := hlow (m + 1) hm
          obtain ⟨hinserted, heq⟩ | ⟨hinserted, heq⟩ := hnumbers <;> rw [heq]
          · rw [hinserted] at habove
            refine ⟨List.pairwise_cons.mpr ⟨fun n hn => ?_, hrest⟩, fun low hlow n hn => ?_⟩
            · have hn := habove n hn
              omega
            · have hm := hlow m List.mem_cons_self
              obtain rfl | hn := List.mem_cons.mp hn
              · omega
              · have hn := habove n hn
                omega
          · rw [hinserted] at habove
            refine ⟨List.pairwise_cons.mpr ⟨fun n hn => ?_,
              List.pairwise_cons.mpr ⟨fun n hn => ?_, hrest⟩⟩, fun low hlow n hn => ?_⟩
            · obtain rfl | hn := List.mem_cons.mp hn
              · omega
              · have hn := habove n hn
                omega
            · have hn := habove n hn
              omega
            · have hm := hlow m List.mem_cons_self
              obtain rfl | hn := List.mem_cons.mp hn
              · omega
              · obtain rfl | hn := List.mem_cons.mp hn
                · omega
                · have hn := habove n hn
                  omega

theorem settled_of_append {held : Held} {before after : List Entries} {event : Entries}
    (h : SettledAll C held (before ++ event :: after)) :
    Settled C (before.foldl (gather C) held) event :=
  (settledAll_append.mp h).2.1

section Examples
open Coding

open Classical in
/-- A codec that writes the given values as the given texts. -/
noncomputable def codec {jsons : List (Json × String)} (h : Distinct jsons)
    (hhead : ∀ entry ∈ jsons, entry.2.toList.head? ≠ some ' ') : Codec where
  loads source := ((Function.partialInv (Coding.text jsons) source).filter fun value =>
    decide value.WellFormed).elim .malformed .value
  dumps := Coding.text jsons
  writable _ := true
  render := Coding.text jsons
  loads_wellFormed {source value} hloads := by
    cases hread : (Function.partialInv (Coding.text jsons) source).filter fun value => decide value.WellFormed with
    | none =>
      rw [hread] at hloads
      cases hloads
    | some read =>
      rw [hread] at hloads
      cases hloads
      exact of_decide_eq_true (Option.filter_eq_some_iff.mp hread).2
  loads_dumps hformed _ := by
    rw [Function.partialInv_left (text_injective h), Option.filter_some, if_pos (decide_eq_true hformed)]
    rfl
  dumps_head value := by
    obtain hgiven | hown := text_cases jsons value
    · exact hhead _ hgiven
    · rw [hown, String.toList_ofList, List.replicate_succ, List.head?_cons]
      decide

def added : Entries :=
  [("type", .str "response.output_item.added"),
    ("item", .obj [("type", .str "function_call"), ("id", .str "fc"), ("arguments", .str "")]),
    ("sequence_number", .int 1)]

def completed : Entries := [("type", .str "response.completed"), ("sequence_number", .int 2)]

/-- A done event without a number. -/
def done : Entries := [("type", .str "response.function_call_arguments.done"),
    ("item_id", .str "fc"), ("arguments", .str "[]")]

def written : List (Json × String) :=
  [(.obj added, "\x7b\"type\": \"response.output_item.added\", \"item\": \x7b\"type\": \"function_call\", \"id\": \"fc\", \"arguments\": \"\"\x7d, \"sequence_number\": 1\x7d"),
    (.obj completed, "\x7b\"type\": \"response.completed\", \"sequence_number\": 2\x7d"),
    (.obj done,
      "\x7b\"type\": \"response.function_call_arguments.done\", \"item_id\": \"fc\", \"arguments\": \"[]\"\x7d")]

noncomputable def someCodec : Codec := @codec written ⟨by decide +kernel, by decide +kernel⟩ (by decide +kernel)

/-- The lines of the events. -/
def sent (C : Codec) (events : List Entries) : List String := (events.map fun event => [dataLine C event, ""]).flatten

theorem framesOf_sent (C : Codec) (events : List Entries) :
    framesOf (sent C events) = events.map fun event => [dataLine C event, ""] := by
  refine framesOf_flatten ?_
  induction events with
  | nil => trivial
  | cons event rest ih => exact ⟨.inl ⟨[dataLine C event], not_mem_dataLine List.not_mem_nil event, rfl⟩, ih⟩

/-- What is sent is read as the events that were sent. -/
theorem eventOf_sent {event : Entries} (h : (Json.obj event).WellFormed) (hwrites : writes C event = true) :
    eventOf C [dataLine C event, ""] = some event := by
  refine eventOf_of_data ?_ h hwrites
  rw [List.filter_cons_of_pos (isData_dataLine event),
    List.filter_cons_of_neg (by rw [isData_empty]; exact Bool.false_ne_true), List.filter_nil]

theorem formed_added : (Json.obj added).WellFormed := by
  simp [added, Json.WellFormed, Json.WellFormedEntries, Json.keys]

theorem formed_completed : (Json.obj completed).WellFormed := by
  simp [completed, Json.WellFormed, Json.WellFormedEntries, Json.keys]

theorem formed_done : (Json.obj done).WellFormed := by
  simp [done, Json.WellFormed, Json.WellFormedEntries, Json.keys]

end Examples

end Stream

end Galaris.Llm.ResponsesStream
