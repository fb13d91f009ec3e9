import Galaris.Base.Texts
import Galaris.Base.Lines
import Mathlib.Data.List.Forall2
import Mathlib.Data.List.TakeWhile
import Mathlib.Order.Basic

/-! What is sent of a conversation (`llm/message_cleanup.py`).

Prompts gather in a conversation, each with the history of its room. Empty messages are left out, the texts of
earlier users are cut down, the entries of their history come before them as messages, and of what is not a system
message the last ones are kept. The calls of tools stay with their answers through all of it
(`request_stays_formed`). -/
namespace Galaris.Llm.MessageCleanup

open Texts

abbrev Text := List Char

/-- The content of a message: a text, the texts of its parts where they have one, or nothing of these. -/
inductive Content
  | text (value : Text)
  | parts (texts : List (Option Text))
  | other
deriving DecidableEq, Repr

/-- A message, with the ids of its tool calls and the id that it answers. -/
structure Message where
  role : String
  content : Content
  toolCalls : List String := []
  toolCallId : Option String := none
deriving DecidableEq, Repr

/-- JSON and letters: the entries of an object if it is one, a text as a value, whether a value is null,
`str` of it, the object of some entries, and `str.lower`. -/
structure Codec (V : Type) where
  loads : Text → Option (List (Text × V))
  text : Text → V
  isNull : V → Bool
  str : V → Text
  dumps : List (Text × V) → Text
  lower : Text → Text

/-! ### Texts -/

def galarisTags : List Text :=
  ["<galaris_role>".toList, "<galaris_message_context>".toList, "<message-or-task>".toList,
    "<role-and-context>".toList, "<reply_contract>".toList]

/-- `_MAX_MESSAGES`. -/
def maxMessages : Nat := 30

/-- `_text_of`. -/
def textOf : Content → Text
  | .text value => value
  | .parts texts => "\n".toList.intercalate (texts.filterMap id)
  | .other => []

/-- `_has_payload`. -/
def hasPayload (message : Message) : Bool :=
  if message.toolCalls ≠ [] then true
  else match message.content with
    | .parts texts => texts ≠ []
    | content => strip (textOf content) ≠ []

/-- `pattern.sub("", content)` of a block and the white space after it. -/
def dropBlock (tag : String) (content : Text) : Text :=
  subBetween ("<".toList ++ tag.toList ++ ">".toList) ("</".toList ++ tag.toList ++ ">".toList)
    (fun _ => []) true content.length content

/-- `_EMPTY_CONVERSATION_CONTEXT_RE.sub("", content)`. -/
def dropEmptyContext : Nat → Text → Text
  | 0, content => content
  | fuel + 1, content =>
    match cutAt "<conversation_context>".toList content with
    | none => content
    | some (before, after) =>
      if "</conversation_context>".toList.isPrefixOf (after.dropWhile isSpace) then
        before ++ dropEmptyContext fuel
          (((after.dropWhile isSpace).drop "</conversation_context>".length).dropWhile isSpace)
      else before ++ "<conversation_context>".toList ++ dropEmptyContext fuel after

/-- What follows the introduction of a history, whose next line goes as far as it says that something is
delivered separately. -/
def afterIntro (after : Text) : Text :=
  let rest := (after.dropWhile (· ≠ '\n')).drop 1
  let line := rest.takeWhile (· ≠ '\n')
  match cutAt "delivered separately.".toList.reverse line.reverse with
  | none => rest
  | some (tail, _) => (tail.reverse ++ rest.dropWhile (· ≠ '\n')).dropWhile isSpace

/-- `_HISTORY_INTRO_RE.sub("", content)`. -/
def dropIntro : Nat → Text → Text
  | 0, content => content
  | fuel + 1, content =>
    match cutAt "Recent messages in this room".toList content with
    | none => content
    | some (before, after) => before ++ dropIntro fuel (afterIntro after)

/-- `_BLANK_LINES_RE.sub("\n\n", content)`, behind a number of line breaks. -/
def squeeze : Nat → Text → Text
  | _, [] => []
  | breaks, c :: rest =>
    if c = '\n' then (if breaks < 2 then c :: squeeze (breaks + 1) rest else squeeze breaks rest)
      else c :: squeeze 0 rest

/-- `_history_entries`. -/
def historyEntries (content : Text) : List Text :=
  (between "<history>".toList "</history>".toList content.length content).flatMap fun block =>
      (Lines.bodies block).filterMap fun line =>
    let line := strip line
    let entry := strip (removeStart "- ".toList line)
    if "- ".toList.isPrefixOf line ∧ entry ≠ [] then some entry else none

section Config
variable {V : Type} (codec : Codec V)

/-- `_normalize`. -/
def normalize (text : Text) : Text := codec.lower (" ".toList.intercalate (words (strip text)))

/-- `_CONTEXT_KEPT_KEYS`. -/
def contextKeptKeys : List Text := ["datetime".toList, "weekday".toList, "user_name".toList, "user_id".toList]

/-- The entries of a list of bullets. -/
def bullets (body : Text) : List (Text × V) :=
  (Lines.bodies body).filterMap fun line =>
    let item := strip (removeStart "- ".toList (strip line))
    let key := ((cutAt ":".toList item).map (·.1)).getD item
    if item = [] then none
    else some ((codec.lower (strip key)).map fun c => if c = ' ' then '_' else c,
      codec.text (strip (afterFirst ":".toList item)))

/-- `_compress_context`; of the bullets with one key the last one counts. -/
def compressContext (inner : Text) : Text :=
  let body := strip inner
  let entries := (codec.loads body).getD (bullets codec body).reverse
  let kept := contextKeptKeys.filterMap fun key => match entries.lookup key with
    | some value => if codec.isNull value ∨ strip (codec.str value) = [] then none else some (key, value)
    | none => none
  if kept = [] then [] else codec.dumps kept

/-- `_clean_old_user_content`. -/
def cleanOldUserContent (content : Text) : Text :=
  let compressed := match between "<galaris_message_context>".toList "</galaris_message_context>".toList 1 content with
    | [] => []
    | inner :: _ => compressContext codec inner
  let cleaned := dropBlock "galaris_message_context" content
  let cleaned := ["galaris_role", "role-and-context", "reply_contract", "history", "metadata"].foldl
    (fun cleaned tag => dropBlock tag cleaned) cleaned
  let cleaned := subBetween "<message-or-task>".toList "</message-or-task>".toList strip false cleaned.length cleaned
  let cleaned := dropEmptyContext cleaned.length cleaned
  let cleaned := dropIntro cleaned.length cleaned
  let cleaned := strip (squeeze 0 cleaned)
  if compressed = [] then cleaned else strip (compressed ++ "\n\n".toList ++ cleaned)

/-- `_entry_already_present`. -/
def entryAlreadyPresent (entry : Text) (haystacks : List Text) : Bool :=
  let needle := strip (removeEnd "...".toList (normalize codec (afterFirst ":".toList entry)))
  if needle = [] then true else haystacks.any (occurs (needle.take 120))

/-- `_prune_block`. -/
def pruneBlock (haystacks : List Text) (block : Text) : Text :=
  let kept := (Lines.bodies block).filter fun line =>
    let stripped := strip line
    !("- ".toList.isPrefixOf stripped && entryAlreadyPresent codec
      (strip (removeStart "- ".toList stripped)) haystacks) && stripped ≠ []
  if kept = [] then [] else "<history>\n".toList ++ "\n".toList.intercalate kept ++ "\n</history>".toList

/-- The text of the current message without the lines of its history that are known. -/
def pruneText (haystacks : List Text) (content : Text) : Text :=
  let pruned := subBetween "<history>".toList "</history>".toList
    (pruneBlock codec haystacks) false content.length content
  if pruned = content then content
  else
    let pruned := dropEmptyContext pruned.length pruned
    let pruned := if occurs "<history>".toList pruned then pruned else dropIntro pruned.length pruned
    strip (squeeze 0 pruned)

/-! ### Messages -/

def isSystem (m : Message) : Bool := m.role = "system"
def isUser (m : Message) : Bool := m.role = "user"
def isTool (m : Message) : Bool := m.role = "tool"

/-- The last messages but for the answers at their front, whose calls are cut off. -/
def newest (rest : List Message) : List Message := (rest.drop (rest.length - maxMessages)).dropWhile isTool

/-- `_cap_messages`. -/
def capMessages (messages : List Message) : List Message :=
  let system := messages.filter isSystem
  let rest := messages.filter (!isSystem ·)
  if rest.length ≤ maxMessages then messages
  else system ++ newest rest

/-- `_prune_current_history`. -/
def pruneCurrentHistory (messages : List Message) : List Message :=
  match (messages.zipIdx.filter fun (m, _) => isUser m).getLast? with
  | none => messages
  | some (current, index) =>
    match current.content with
    | .text content =>
      if occurs "<history>".toList content then
        let haystacks := (messages.eraseIdx index).map fun m => normalize codec (textOf m.content)
        messages.set index {current with content := .text (pruneText codec haystacks content)}
      else messages
    | _ => messages

/-- The messages so far, and the entries that come before the messages at some positions. -/
structure Progress where
  cleaned : List Message := []
  pendingEntries : List (Nat × List Text) := []

/-- The users' messages are cut down, but for the current one, which no other one follows. -/
def cleanUsers (p : Progress) : List Message → Progress
  | [] => p
  | message :: rest =>
    match message.content with
    | .text content =>
      if isUser message ∧ rest.any isUser then
        let entries := historyEntries content
        let newContent := cleanOldUserContent codec content
        let pending := if entries = [] then p.pendingEntries else p.pendingEntries ++ [(p.cleaned.length, entries)]
        if newContent = [] then cleanUsers ⟨p.cleaned, pending⟩ rest
        else cleanUsers ⟨p.cleaned ++ [{message with content := .text newContent}], pending⟩ rest
      else cleanUsers ⟨p.cleaned ++ [message], p.pendingEntries⟩ rest
    | _ => cleanUsers ⟨p.cleaned ++ [message], p.pendingEntries⟩ rest

/-- `entries_by_position.get(index, [])`. -/
def entriesAt (pendingEntries : List (Nat × List Text)) (index : Nat) : List Text :=
  (pendingEntries.filter fun pending => pending.1 = index).flatMap (·.2)

local instance lawfulBEq_text : LawfulBEq Text := inferInstanceAs (LawfulBEq (List Char))

/-- The messages that entries become, but for those that are there, and the keys of those that are. -/
def promote (haystacks : List Text) : List Text → List Text → List Message × List Text
  | keys, [] => ([], keys)
  | keys, entry :: entries =>
    let key := removeEnd "...".toList (normalize codec entry)
    if key ∈ keys ∨ entryAlreadyPresent codec entry haystacks then promote haystacks keys entries
    else ({role := "user", content := .text entry} :: (promote haystacks (key :: keys) entries).1,
      (promote haystacks (key :: keys) entries).2)

/-- The messages with those that entries become before them. -/
def promoteAll (haystacks : List Text) (pendingEntries : List (Nat × List Text)) :
    List Text → Nat → List Message → List Message
  | keys, index, [] => (promote codec haystacks keys (entriesAt pendingEntries index)).1
  | keys, index, message :: rest =>
    let (promoted, keys) := promote codec haystacks keys (entriesAt pendingEntries index)
    promoted ++ message :: promoteAll haystacks pendingEntries keys (index + 1) rest

/-- A user's message has one of the tags. -/
def tagged (messages : List Message) : Bool :=
    messages.any fun m => isUser m && galarisTags.any (occurs · (textOf m.content))

/-- What is left of the messages before they are counted. -/
def prepared (messages : List Message) : List Message :=
  let p := cleanUsers codec {} (messages.filter fun m => isTool m || hasPayload m)
  promoteAll codec (p.cleaned.map fun m => normalize codec (textOf m.content)) p.pendingEntries [] 0 p.cleaned

/-- `clean_request_messages`. -/
def cleanRequestMessages (messages : List Message) : List Message :=
  if tagged messages then pruneCurrentHistory codec (capMessages (prepared codec messages)) else messages

end Config

/-! ### Calls and answers -/

/-- The calls of an assistant's message. -/
def Message.calls (m : Message) : List String := if m.role = "assistant" then m.toolCalls else []

/-- After some calls, of which some are left to be answered: tools' messages answer one of the calls, and no
other message comes before all are answered. Those at the end must be answered where `complete` says so. -/
def Formed (complete : Prop) : List String → List String → List Message → Prop
  | _, left, [] => complete → left = []
  | calls, left, m :: rest =>
    if isTool m then (∃ id ∈ calls, m.toolCallId = some id) ∧
      Formed complete calls (left.filter fun id => m.toolCallId ≠ some id) rest
    else left = [] ∧ Formed complete m.calls m.calls rest

/-- The tools' messages belong to the closest assistant's message before them, whose calls are answered
before another message comes. -/
def WellFormed (complete : Prop) (messages : List Message) : Prop := Formed complete [] [] messages

/-- The message is no answer and calls no tool. -/
def Plain (m : Message) : Prop := isTool m = false ∧ m.calls = []

/-- What the steps do to a list of messages: plain ones that are not system messages with a payload are left
out, users' messages change their content and others are put before messages that are no answers; the last
one stays. -/
inductive Tidied : List Message → List Message → Prop
  | nil : Tidied [] []
  | keep (m : Message) {l l' : List Message} : Tidied l l' → Tidied (m :: l) (m :: l')
  | drop {m : Message} {l l' : List Message} :
    Plain m → (isSystem m = true → hasPayload m = false) → l ≠ [] → Tidied l l' → Tidied (m :: l) l'
  | replace {m : Message} (content : Content) {l l' : List Message} : isUser m = true → l ≠ [] → Tidied l l' →
      Tidied (m :: l) ({m with content} :: l')
  | insert {x m : Message} {l l' : List Message} :
    isUser x = true → isTool m = false → Tidied (m :: l) l' → Tidied (m :: l) (x :: l')

variable {complete : Prop} {calls left : List String} {m : Message} {l l' : List Message}

theorem plain_of_user (h : isUser m = true) : Plain m := by
  have hrole : m.role = "user" := of_decide_eq_true h
  simp [Plain, isTool, Message.calls, hrole]

theorem plain_of_system (h : isSystem m = true) : Plain m := by
  have hrole : m.role = "system" := of_decide_eq_true h
  simp [Plain, isTool, Message.calls, hrole]

theorem not_system_of_user (h : isUser m = true) : isSystem m = false := by
  have hrole : m.role = "user" := of_decide_eq_true h
  simp [isSystem, hrole]

theorem formed_tool (h : isTool m = true) : Formed complete calls left (m :: l) ↔
    (∃ id ∈ calls, m.toolCallId = some id) ∧
    Formed complete calls (left.filter fun id => m.toolCallId ≠ some id) l := by
  rw [Formed, if_pos h]

theorem formed_other (h : isTool m = false) :
    Formed complete calls left (m :: l) ↔ left = [] ∧ Formed complete m.calls m.calls l := by
  rw [Formed, if_neg (by rw [h]; exact Bool.false_ne_true)]

theorem formed_plain (h : Plain m) : Formed complete calls left (m :: l) ↔ left = [] ∧ Formed complete [] [] l := by
  rw [formed_other h.1, h.2]

/-- Where there are no calls no answer comes next. -/
theorem head_of_formed (h : Formed complete [] [] (m :: l)) : isTool m = false := by
  by_contra htool
  obtain ⟨⟨_, hid, -⟩, -⟩ := (formed_tool (eq_true_of_ne_false htool)).mp h
  cases hid

/-- So what comes next may come after any calls that are answered. -/
theorem formed_after (h : Formed complete [] [] l) (calls : List String) : Formed complete calls [] l := by
  cases l with
  | nil => exact h
  | cons m l =>
    have hother := head_of_formed h
    exact (formed_other hother).mpr ((formed_other hother).mp h)

theorem Tidied.formed (h : Tidied l l') (hformed : Formed complete calls left l) : Formed complete calls left l' := by
  induction h generalizing calls left with
  | nil => exact hformed
  | keep m _ ih =>
    cases htool : isTool m with
    | true =>
      obtain ⟨hbelongs, hrest⟩ := (formed_tool htool).mp hformed
      exact (formed_tool htool).mpr ⟨hbelongs, ih hrest⟩
    | false =>
      obtain ⟨hleft, hrest⟩ := (formed_other htool).mp hformed
      exact (formed_other htool).mpr ⟨hleft, ih hrest⟩
  | drop hplain _ _ _ ih =>
    obtain ⟨rfl, hrest⟩ := (formed_plain hplain).mp hformed
    exact formed_after (ih hrest) calls
  | replace content huser _ _ ih =>
    obtain ⟨hleft, hrest⟩ := (formed_plain (plain_of_user huser)).mp hformed
    exact (formed_plain (plain_of_user huser)).mpr ⟨hleft, ih hrest⟩
  | insert huser hother _ ih =>
    obtain ⟨hleft, hrest⟩ := (formed_other hother).mp hformed
    exact (formed_plain (plain_of_user huser)).mpr ⟨hleft, ih ((formed_other hother).mpr ⟨rfl, hrest⟩)⟩

theorem Tidied.ne_nil (h : Tidied l l') (hne : l ≠ []) : l' ≠ [] := by
  induction h with
  | nil => exact hne
  | keep => exact List.cons_ne_nil _ _
  | drop _ _ hrest _ ih => exact ih hrest
  | replace => exact List.cons_ne_nil _ _
  | insert => exact List.cons_ne_nil _ _

theorem getLast?_cons_of_ne (m : Message) (hne : l ≠ []) : (m :: l).getLast? = l.getLast? := by
  cases l with
  | nil => exact absurd rfl hne
  | cons m' l => rfl

theorem last_of_tail {P : Message → Prop} (h : ∀ last, (m :: l).getLast? = some last → P last) :
    ∀ last, l.getLast? = some last → P last := by
  intro last hlast
  refine h last ?_
  rw [getLast?_cons_of_ne m (by rintro rfl; cases hlast), hlast]

theorem Tidied.last (h : Tidied l l') : l'.getLast? = l.getLast? := by
  induction h with
  | nil => rfl
  | @keep m l l' h ih =>
    cases l with
    | nil => cases h; rfl
    | cons m' l =>
      rw [getLast?_cons_of_ne m (h.ne_nil (List.cons_ne_nil _ _)), ih]
      rfl
  | drop _ _ hne _ ih => rw [ih, getLast?_cons_of_ne _ hne]
  | replace _ _ hne h ih => rw [getLast?_cons_of_ne _ (h.ne_nil hne), ih, getLast?_cons_of_ne _ hne]
  | insert _ _ h ih => rw [getLast?_cons_of_ne _ (h.ne_nil (List.cons_ne_nil _ _)), ih]

/-- The system messages with a payload stay in order. -/
theorem Tidied.systems (h : Tidied l l') :
    (l'.filter isSystem).filter hasPayload = (l.filter isSystem).filter hasPayload := by
  induction h with
  | nil => rfl
  | keep m _ ih => simp only [List.filter_cons]; split <;> simp only [List.filter_cons, ih]
  | @drop m l l' _ hempty _ _ ih =>
    rw [ih]
    cases hsystem : isSystem m with
    | true => simp [hsystem, hempty hsystem]
    | false => simp [hsystem]
  | @replace m content l l' huser _ _ ih =>
    have hm := not_system_of_user huser
    have hm' : isSystem {m with content} = false := hm
    simp [hm, hm', ih]
  | insert huser _ _ ih =>
    rw [List.filter_cons, if_neg (by rw [not_system_of_user huser]; exact Bool.false_ne_true), ih]

/-! ### The steps -/

section Steps
variable {V : Type} {codec : Codec V}

/-- Leaving the empty messages out. -/
theorem tidied_payload (hlast : ∀ m, l.getLast? = some m → isTool m = true ∨ hasPayload m = true) :
    Tidied l (l.filter fun m => isTool m || hasPayload m) := by
  induction l with
  | nil => exact .nil
  | cons m l ih =>
    have hrest := last_of_tail hlast
    cases hkeep : isTool m || hasPayload m with
    | true =>
      rw [List.filter_cons, if_pos hkeep]
      exact .keep m (ih hrest)
    | false =>
      obtain ⟨htool, hempty⟩ := Bool.or_eq_false_iff.mp hkeep
      rw [List.filter_cons, if_neg (by rw [hkeep]; exact Bool.false_ne_true)]
      refine .drop ⟨htool, ?_⟩ (fun _ => hempty) ?_ (ih hrest)
      · -- A message with tool calls has a payload.
        have hcalls : m.toolCalls = [] := by
          by_contra hne
          rw [hasPayload, if_pos hne] at hempty
          cases hempty
        simp [Message.calls, hcalls]
      · rintro rfl
        obtain h | h := hlast m rfl
        · rw [htool] at h
          cases h
        · rw [hempty] at h
          cases h

/-- The entries wait for messages that are no answers, the next one at the latest. -/
def Waits (p : Progress) (l : List Message) : Prop :=
  ∀ pending ∈ p.pendingEntries, pending.1 ≤ p.cleaned.length ∧ ∃ m,
    (p.cleaned ++ l)[pending.1]? = some m ∧ isTool m = false

/-- A message is kept, or is a user's that another one follows: its entries may wait for what comes in its
place, which is the message with another content or the next one. -/
theorem cleanUsers_cons (p : Progress) (m : Message) (l : List Message) :
    cleanUsers codec p (m :: l) = cleanUsers codec ⟨p.cleaned ++ [m], p.pendingEntries⟩ l ∨
    isUser m = true ∧ l ≠ [] ∧ ∃ pending, (∀ e ∈ pending, e ∈ p.pendingEntries ∨ e.1 = p.cleaned.length) ∧
      (cleanUsers codec p (m :: l) = cleanUsers codec ⟨p.cleaned, pending⟩ l ∨
        ∃ content, cleanUsers codec p (m :: l) = cleanUsers codec ⟨p.cleaned ++ [{m with content}], pending⟩ l) := by
  rw [cleanUsers]
  split
  case h_2 => exact .inl rfl
  case h_1 content _ =>
    split
    case isFalse => exact .inl rfl
    case isTrue hold =>
      refine .inr ⟨hold.1, ?_, if historyEntries content = [] then p.pendingEntries
        else p.pendingEntries ++ [(p.cleaned.length, historyEntries content)], ?_, ?_⟩
      · rintro rfl
        exact Bool.false_ne_true hold.2
      · intro e he
        split at he
        case isTrue => exact .inl he
        case isFalse =>
          obtain he | he := List.mem_append.mp he
          · exact .inl he
          · exact .inr (congrArg Prod.fst (List.mem_singleton.mp he))
      · by_cases hnew : cleanOldUserContent codec content = []
        · exact .inl (if_pos hnew)
        · exact .inr ⟨_, if_neg hnew⟩

theorem getElem?_length_append (l l' : List Message) : (l ++ l')[l.length]? = l'.head? := by
  rw [List.getElem?_append_right (Nat.le_refl _), Nat.sub_self, List.head?_eq_getElem?]

/-- Entries that waited go on to wait, where what comes at the next place is no answer. -/
theorem Waits.next {p : Progress} (h : Waits p l) {pending : List (Nat × List Text)}
    (hpending : ∀ e ∈ pending, e ∈ p.pendingEntries ∨ e.1 = p.cleaned.length)
    (now : List Message) (hhead : ∃ m, (now ++ l').head? = some m ∧ isTool m = false) :
    Waits ⟨p.cleaned ++ now, pending⟩ l' := by
  intro e he
  have hnext : e.1 = p.cleaned.length → ∃ m, (p.cleaned ++ now ++ l')[e.1]? = some m ∧ isTool m = false := by
    intro heq
    obtain ⟨m, hm, hother⟩ := hhead
    exact ⟨m, by rw [heq, List.append_assoc, getElem?_length_append, hm], hother⟩
  obtain hold | heq := hpending e he
  · obtain ⟨hle, m, hm, hother⟩ := h e hold
    refine ⟨hle.trans (by rw [List.length_append]; exact Nat.le_add_right ..), ?_⟩
    obtain hlt | heq := Nat.lt_or_eq_of_le hle
    · refine ⟨m, ?_, hother⟩
      rw [List.getElem?_append_left hlt] at hm
      rw [List.append_assoc, List.getElem?_append_left hlt, hm]
    · exact hnext heq
  · exact ⟨by rw [heq, List.length_append]; exact Nat.le_add_right .., hnext heq⟩

theorem Waits.keep {p : Progress} (h : Waits p (m :: l)) : Waits ⟨p.cleaned ++ [m], p.pendingEntries⟩ l := by
  intro e he
  obtain ⟨hle, m', hm', hother⟩ := h e he
  exact ⟨hle.trans (by rw [List.length_append]; exact Nat.le_add_right ..),
    m', by rw [List.append_assoc]; exact hm', hother⟩

theorem exists_head (hformed : Formed complete [] [] l) (hne : l ≠ []) : ∃ m, l.head? = some m ∧ isTool m = false := by
  cases l with
  | nil => exact absurd rfl hne
  | cons m l => exact ⟨m, rfl, head_of_formed hformed⟩

theorem Formed.tail (h : Formed complete calls left (m :: l)) : ∃ calls' left', Formed complete calls' left' l := by
  cases htool : isTool m with
  | true => exact ⟨_, _, ((formed_tool htool).mp h).2⟩
  | false => exact ⟨_, _, ((formed_other htool).mp h).2⟩

theorem cleanUsers_spec {p : Progress} (hformed : Formed complete calls left l) (hwaits : Waits p l) :
    (∃ l', (cleanUsers codec p l).cleaned = p.cleaned ++ l' ∧ Tidied l l') ∧ Waits (cleanUsers codec p l) [] := by
  induction l generalizing p calls left with
  | nil => exact ⟨⟨[], (List.append_nil _).symm, .nil⟩, hwaits⟩
  | cons m l ih =>
    obtain hkept | ⟨huser, hne, pending, hpending, hdropped | ⟨content, hreplaced⟩⟩ := @cleanUsers_cons V codec p m l
    · obtain ⟨_, _, hrest⟩ := hformed.tail
      obtain ⟨⟨l', hcleaned, htidied⟩, hwaits'⟩ := ih hrest hwaits.keep
      rw [hkept]
      exact ⟨⟨m :: l', by rw [hcleaned, List.append_assoc]; rfl, .keep m htidied⟩, hwaits'⟩
    · have hrest := ((formed_plain (plain_of_user huser)).mp hformed).2
      have hnext := hwaits.next hpending [] (exists_head hrest hne)
      rw [List.append_nil] at hnext
      obtain ⟨⟨l', hcleaned, htidied⟩, hwaits'⟩ := ih hrest hnext
      rw [hdropped]
      exact ⟨⟨l', hcleaned, .drop (plain_of_user huser) (fun hsystem =>
        absurd (hsystem.symm.trans (not_system_of_user huser)) nofun) hne htidied⟩, hwaits'⟩
    · have hrest := ((formed_plain (plain_of_user huser)).mp hformed).2
      have hnext : Waits ⟨p.cleaned ++ [{m with content}], pending⟩ l :=
          hwaits.next hpending [_] ⟨_, rfl, (plain_of_user huser).1⟩
      obtain ⟨⟨l', hcleaned, htidied⟩, hwaits'⟩ := ih hrest hnext
      rw [hreplaced]
      exact ⟨⟨_ :: l', by rw [hcleaned, List.append_assoc]; rfl, .replace content huser hne htidied⟩, hwaits'⟩

theorem promote_users {haystacks keys entries : List Text} :
    ∀ x ∈ (promote codec haystacks keys entries).1, isUser x = true := by
  induction entries generalizing keys with
  | nil => exact nofun
  | cons entry entries ih =>
    intro x hx
    rw [promote] at hx
    split at hx
    case isTrue => exact ih x hx
    case isFalse =>
      obtain rfl | hx := List.mem_cons.mp hx
      · rfl
      · exact ih x hx

theorem tidied_before {xs : List Message} (hxs : ∀ x ∈ xs, isUser x = true)
    (hother : xs ≠ [] → isTool m = false) (h : Tidied (m :: l) l') :
    Tidied (m :: l) (xs ++ l') := by
  induction xs with
  | nil => exact h
  | cons x xs ih =>
    have hm := hother (List.cons_ne_nil _ _)
    exact .insert (hxs x (.head _)) hm (ih (fun y hy => hxs y (.tail _ hy)) fun _ => hm)

theorem entriesAt_eq_nil {pending : List (Nat × List Text)} {index : Nat}
    (h : ∀ e ∈ pending, e.1 ≠ index) : entriesAt pending index = [] := by
  rw [entriesAt, List.filter_eq_nil_iff.mpr fun e he => by simpa using h e he]
  rfl

/-- Entries become messages before those that they wait for. -/
theorem tidied_promoteAll {haystacks keys : List Text} {pending : List (Nat × List Text)} {index : Nat}
    (h : ∀ e ∈ pending, index ≤ e.1 → ∃ m, l[e.1 - index]? = some m ∧ isTool m = false) :
    Tidied l (promoteAll codec haystacks pending keys index l) := by
  induction l generalizing keys index with
  | nil =>
    rw [promoteAll, entriesAt_eq_nil]
    · exact .nil
    · rintro e he rfl
      obtain ⟨m, hm, -⟩ := h e he (Nat.le_refl _)
      cases hm
  | cons m l ih =>
    rw [promoteAll]
    refine tidied_before promote_users (fun hne => ?_) (.keep m (ih fun e he hlater => ?_))
    · by_contra htool
      refine hne ?_
      rw [entriesAt_eq_nil]
      · rfl
      · rintro e he rfl
        obtain ⟨m', hm', hother⟩ := h e he (Nat.le_refl _)
        rw [Nat.sub_self] at hm'
        cases hm'
        exact htool hother
    · obtain ⟨m', hm', hother⟩ := h e he (Nat.le_of_succ_le hlater)
      have hindex : e.1 - index = e.1 - (index + 1) + 1 := by omega
      rw [hindex] at hm'
      exact ⟨m', hm', hother⟩

/-- Messages that are all answers have been left as they are. -/
theorem Tidied.answers_eq (h : Tidied l l') (hformed : Formed complete calls left l)
    (hanswers : ∀ m ∈ l', isTool m = true) : l = l' := by
  induction h generalizing calls left with
  | nil => rfl
  | keep m _ ih =>
    obtain ⟨_, _, hrest⟩ := hformed.tail
    rw [ih hrest fun m' hm' => hanswers m' (.tail _ hm')]
  | drop hplain _ hne h _ =>
    have hrest := ((formed_plain hplain).mp hformed).2
    obtain ⟨m, hm, hother⟩ := exists_head (h.formed hrest) (h.ne_nil hne)
    exact absurd ((hanswers m (List.mem_of_head? hm)).symm.trans hother) nofun
  | replace content huser => exact absurd ((hanswers _ (.head _)).symm.trans (plain_of_user huser).1) nofun
  | insert huser => exact absurd ((hanswers _ (.head _)).symm.trans (plain_of_user huser).1) nofun

/-- So have the answers at the end. -/
theorem Tidied.answers_suffix (h : Tidied l l') (hformed : Formed complete calls left l)
    {ts : List Message} (hanswers : ∀ m ∈ ts, isTool m = true)
    (hts : ts <:+ l') : ts <:+ l := by
  induction h generalizing calls left with
  | nil => exact hts
  | keep m h ih =>
    obtain ⟨_, _, hrest⟩ := hformed.tail
    obtain rfl | hts := List.suffix_cons_iff.mp hts
    · exact ⟨[], by rw [List.nil_append, h.answers_eq hrest fun m' hm' => hanswers m' (.tail _ hm')]⟩
    · exact (ih hrest hts).trans (List.suffix_cons _ _)
  | drop hplain _ _ _ ih => exact (ih ((formed_plain hplain).mp hformed).2 hts).trans (List.suffix_cons _ _)
  | replace content huser _ _ ih =>
    obtain rfl | hts := List.suffix_cons_iff.mp hts
    · exact absurd ((hanswers _ (.head _)).symm.trans (plain_of_user huser).1) nofun
    · exact (ih ((formed_plain (plain_of_user huser)).mp hformed).2 hts).trans (List.suffix_cons _ _)
  | insert huser hother _ ih =>
    obtain rfl | hts := List.suffix_cons_iff.mp hts
    · exact absurd ((hanswers _ (.head _)).symm.trans (plain_of_user huser).1) nofun
    · exact ih hformed hts

/-- What the steps before the cap keep. -/
structure Keeps (complete : Prop) (l l' : List Message) : Prop where
  formed : WellFormed complete l'
  last : l'.getLast? = l.getLast?
  systems : (l'.filter isSystem).filter hasPayload = (l.filter isSystem).filter hasPayload
  answers : ∀ ts : List Message, (∀ m ∈ ts, isTool m = true) → ts <:+ l' → ts <:+ l

theorem Tidied.keeps (h : Tidied l l') (hformed : WellFormed complete l) : Keeps complete l l' :=
  ⟨h.formed hformed, h.last, h.systems, fun _ => h.answers_suffix hformed⟩

theorem Keeps.trans {l'' : List Message} (h : Keeps complete l l') (h' : Keeps complete l' l'') :
    Keeps complete l l'' :=
  ⟨h'.formed, h'.last.trans h.last, h'.systems.trans h.systems,
    fun ts hts hsuffix => h.answers ts hts (h'.answers ts hts hsuffix)⟩

theorem prepared_keeps (hformed : WellFormed complete l)
    (hlast : ∀ m, l.getLast? = some m → isTool m = true ∨ hasPayload m = true) :
    Keeps complete l (prepared codec l) := by
  have hkept := (tidied_payload hlast).keeps hformed
  have hwaits : Waits {} (l.filter fun m => isTool m || hasPayload m) := nofun
  obtain ⟨⟨l', hcleaned, htidied⟩, hwaits'⟩ := @cleanUsers_spec complete [] [] _ V codec {} hkept.formed hwaits
  have hl' : (cleanUsers codec {} (l.filter fun m => isTool m || hasPayload m)).cleaned = l' := hcleaned
  have hclean := htidied.keeps hkept.formed
  refine hkept.trans (hclean.trans (Tidied.keeps ?_ hclean.formed))
  simp only [prepared, hl']
  refine tidied_promoteAll fun e he _ => ?_
  obtain ⟨-, m, hm, hother⟩ := hwaits' e he
  rw [List.append_nil, hl'] at hm
  exact ⟨m, hm, hother⟩

/-! ### The cap -/

theorem formed_filter (h : Formed complete calls left l) : Formed complete calls left (l.filter (!isSystem ·)) := by
  induction l generalizing calls left with
  | nil => exact h
  | cons m l ih =>
    cases hsystem : isSystem m with
    | true =>
      obtain ⟨rfl, hrest⟩ := (formed_plain (plain_of_system hsystem)).mp h
      rw [List.filter_cons, if_neg (by simp [hsystem])]
      exact formed_after (ih hrest) calls
    | false =>
      rw [List.filter_cons, if_pos (by simp [hsystem])]
      cases htool : isTool m with
      | true =>
        obtain ⟨hbelongs, hrest⟩ := (formed_tool htool).mp h
        exact (formed_tool htool).mpr ⟨hbelongs, ih hrest⟩
      | false =>
        obtain ⟨hleft, hrest⟩ := (formed_other htool).mp h
        exact (formed_other htool).mpr ⟨hleft, ih hrest⟩

theorem formed_drop (h : Formed complete calls left l) (n : Nat) :
    ∃ calls' left', Formed complete calls' left' (l.drop n) := by
  induction n generalizing l calls left with
  | zero => exact ⟨_, _, h⟩
  | succ n ih =>
    cases l with
    | nil => exact ⟨_, _, h⟩
    | cons m l =>
      obtain ⟨_, _, hrest⟩ := h.tail
      exact ih hrest

/-- Without the answers at the front nothing is missing. -/
theorem formed_dropWhile (h : Formed complete calls left l) : WellFormed complete (l.dropWhile isTool) := by
  induction l generalizing calls left with
  | nil => exact fun _ => rfl
  | cons m l ih =>
    cases htool : isTool m with
    | true =>
      obtain ⟨_, _, hrest⟩ := h.tail
      rw [List.dropWhile_cons_of_pos htool]
      exact ih hrest
    | false =>
      rw [List.dropWhile_cons_of_neg (by rw [htool]; exact Bool.false_ne_true)]
      exact (formed_other htool).mpr ⟨rfl, ((formed_other htool).mp h).2⟩

theorem formed_before {xs : List Message} (hxs : ∀ x ∈ xs, Plain x) (h : WellFormed complete l) :
    WellFormed complete (xs ++ l) := by
  induction xs with
  | nil => exact h
  | cons x xs ih => exact (formed_plain (hxs x (.head _))).mpr ⟨rfl, ih fun y hy => hxs y (.tail _ hy)⟩

/-- Where there are no calls, and no message but answers and system messages, there are only system messages. -/
theorem systems_of_answers (h : Formed complete [] [] l)
    (hanswers : ∀ m ∈ l.filter (!isSystem ·), isTool m = true) : ∀ m ∈ l, isSystem m = true := by
  induction l with
  | nil => exact nofun
  | cons m l ih =>
    have hsystem : isSystem m = true := by
      by_contra hsystem
      have hm : m ∈ (m :: l).filter (!isSystem ·) := List.mem_filter.mpr ⟨.head _, by simpa using hsystem⟩
      exact absurd ((hanswers m hm).symm.trans (head_of_formed h)) nofun
    intro m' hm'
    obtain rfl | hm' := List.mem_cons.mp hm'
    · exact hsystem
    · refine ih ((formed_plain (plain_of_system hsystem)).mp h).2 (fun x hx => hanswers x ?_) m' hm'
      rw [List.filter_cons, if_neg (by simp [hsystem])]
      exact hx

/-- Where the last message is no system message, none stands among the answers at the end. -/
theorem filter_of_answers (h : Formed complete calls left l) (hlast : ∀ m, l.getLast? = some m → isSystem m = false)
    (hanswers : ∀ m ∈ l.filter (!isSystem ·), isTool m = true) : l.filter (!isSystem ·) = l := by
  induction l generalizing calls left with
  | nil => rfl
  | cons m l ih =>
    have hrest := last_of_tail hlast
    cases hsystem : isSystem m with
    | true =>
      have hall := systems_of_answers (l := m :: l) ((formed_plain (plain_of_system hsystem)).mpr
          ⟨rfl, ((formed_plain (plain_of_system hsystem)).mp h).2⟩) hanswers
      obtain ⟨last, hlast'⟩ := Option.isSome_iff_exists.mp (List.getLast?_isSome.mpr (List.cons_ne_nil m l))
      exact absurd ((hall last (List.mem_of_getLast? hlast')).symm.trans (hlast last hlast')) nofun
    | false =>
      rw [List.filter_cons, if_pos (by simp [hsystem])] at hanswers ⊢
      obtain ⟨_, _, htail⟩ := h.tail
      rw [ih htail hrest fun x hx => hanswers x (.tail _ hx)]

theorem suffix_of_filter (h : Formed complete calls left l)
    (hlast : ∀ m, l.getLast? = some m → isSystem m = false) {ts : List Message}
    (hanswers : ∀ m ∈ ts, isTool m = true) (hts : ts <:+ l.filter (!isSystem ·)) : ts <:+ l := by
  induction l generalizing calls left with
  | nil => exact hts
  | cons m l ih =>
    have hrest := last_of_tail hlast
    obtain ⟨_, _, htail⟩ := h.tail
    rw [List.filter_cons] at hts
    split at hts
    case isFalse => exact (ih htail hrest hts).trans (List.suffix_cons _ _)
    case isTrue =>
      obtain rfl | hts := List.suffix_cons_iff.mp hts
      · exact ⟨[], by rw [List.nil_append, filter_of_answers htail hrest fun x hx => hanswers x (.tail _ hx)]⟩
      · exact (ih htail hrest hts).trans (List.suffix_cons _ _)

theorem capMessages_of_le (h : (l.filter (!isSystem ·)).length ≤ maxMessages) : capMessages l = l := if_pos h

theorem capMessages_of_lt (h : ¬(l.filter (!isSystem ·)).length ≤ maxMessages) :
    capMessages l = l.filter isSystem ++ newest (l.filter (!isSystem ·)) := if_neg h

theorem newest_suffix (l : List Message) : newest l <:+ l := (List.dropWhile_suffix _).trans (List.drop_suffix _ _)

theorem newest_length (l : List Message) : (newest l).length ≤ maxMessages := by
  have hlength := (List.dropWhile_sublist isTool (l := l.drop (l.length - maxMessages))).length_le
  rw [List.length_drop] at hlength
  rw [newest]
  omega

/-- Where the last messages are not all answers, the last one is left. -/
theorem newest_last (h : ¬∃ ts : List Message, (∀ m ∈ ts, isTool m = true) ∧
    maxMessages ≤ ts.length ∧ ts <:+ l) (hlong : maxMessages < l.length) :
    (newest l).getLast? = l.getLast? := by
  have hne : newest l ≠ [] := by
    intro hnil
    refine h ⟨l.drop (l.length - maxMessages), List.dropWhile_eq_nil_iff.mp hnil, ?_, List.drop_suffix _ _⟩
    rw [List.length_drop]
    omega
  obtain ⟨before, hbefore⟩ := newest_suffix l
  exact (List.getLast?_append_of_ne_nil before hne).symm.trans (congrArg List.getLast? hbefore)

theorem capMessages_formed (h : WellFormed complete l) : WellFormed complete (capMessages l) := by
  by_cases hle : (l.filter (!isSystem ·)).length ≤ maxMessages
  · rw [capMessages_of_le hle]
    exact h
  · rw [capMessages_of_lt hle]
    obtain ⟨_, _, hdrop⟩ := formed_drop (formed_filter h) ((l.filter (!isSystem ·)).length - maxMessages)
    exact formed_before (fun x hx => plain_of_system (List.mem_filter.mp hx).2) (formed_dropWhile hdrop)

theorem others_of_newest {m : Message} (h : m ∈ newest (l.filter (!isSystem ·))) : isSystem m = false := by
  simpa using (List.mem_filter.mp ((newest_suffix _).subset h)).2

theorem capMessages_systems (l : List Message) : (capMessages l).filter isSystem = l.filter isSystem := by
  by_cases hle : (l.filter (!isSystem ·)).length ≤ maxMessages
  · rw [capMessages_of_le hle]
  · have hothers : (newest (l.filter (!isSystem ·))).filter isSystem = [] :=
      List.filter_eq_nil_iff.mpr fun m hm => by rw [others_of_newest hm]; exact Bool.false_ne_true
    rw [capMessages_of_lt hle, List.filter_append, hothers, List.append_nil, List.filter_filter]
    simp

theorem capMessages_length (l : List Message) : ((capMessages l).filter (!isSystem ·)).length ≤ maxMessages := by
  by_cases hle : (l.filter (!isSystem ·)).length ≤ maxMessages
  · rw [capMessages_of_le hle]
    exact hle
  · have hsystems : (l.filter isSystem).filter (!isSystem ·) = [] :=
      List.filter_eq_nil_iff.mpr fun m hm => by simp [(List.mem_filter.mp hm).2]
    rw [capMessages_of_lt hle, List.filter_append, hsystems, List.nil_append]
    exact (List.length_filter_le _ _).trans (newest_length _)

theorem getLast?_filter (hlast : ∀ m, l.getLast? = some m → isSystem m = false) :
    (l.filter (!isSystem ·)).getLast? = l.getLast? := by
  cases hl : l.getLast? with
  | none => rw [List.getLast?_eq_none_iff.mp hl]; rfl
  | some m =>
    obtain ⟨before, rfl⟩ := List.getLast?_eq_some_iff.mp hl
    simp [hlast m hl]

/-- The last message is left, if it is no system message that is moved, where answers do not fill all places. -/
theorem capMessages_last (h : WellFormed complete l) (hanswers : ¬∃ ts : List Message,
    (∀ m ∈ ts, isTool m = true) ∧ maxMessages ≤ ts.length ∧ ts <:+ l)
    (hlast : (∀ m, l.getLast? = some m → isSystem m = false) ∨ (l.filter (!isSystem ·)).length ≤ maxMessages) :
    (capMessages l).getLast? = l.getLast? := by
  by_cases hle : (l.filter (!isSystem ·)).length ≤ maxMessages
  · rw [capMessages_of_le hle]
  · have hothers := hlast.resolve_right hle
    have hnewest := newest_last (fun ⟨ts, hts, hlength, hsuffix⟩ =>
        hanswers ⟨ts, hts, hlength, suffix_of_filter h hothers hts hsuffix⟩) (Nat.lt_of_not_le hle)
    have hne : newest (l.filter (!isSystem ·)) ≠ [] := by
      intro hnil
      rw [hnil, List.getLast?_nil, eq_comm, List.getLast?_eq_none_iff] at hnewest
      rw [hnewest] at hle
      exact hle (Nat.zero_le _)
    rw [capMessages_of_lt hle, List.getLast?_append_of_ne_nil _ hne, hnewest, getLast?_filter hothers]

/-! ### The current message -/

variable (codec) in
/-- The message is the same, but for known lines in the history of a user's text. -/
def Revised (m m' : Message) : Prop :=
  m' = m ∨ isUser m = true ∧ ∃ content haystacks, m.content = .text content ∧
    m' = {m with content := .text (pruneText codec haystacks content)}

theorem forall₂_set {R : Message → Message → Prop} (hrefl : ∀ m, R m m) {i : Nat} {m m' : Message}
    (h : l[i]? = some m) (hm : R m m') :
    List.Forall₂ R l (l.set i m') := by
  induction l generalizing i with
  | nil => cases h
  | cons x l ih =>
    cases i with
    | zero =>
      cases h
      exact .cons hm (List.forall₂_same.mpr fun x _ => hrefl x)
    | succ i => exact .cons (hrefl x) (ih h)

theorem prune_revises (l : List Message) : List.Forall₂ (Revised codec) l (pruneCurrentHistory codec l) := by
  have hrefl : List.Forall₂ (Revised codec) l l := List.forall₂_same.mpr fun _ _ => .inl rfl
  unfold pruneCurrentHistory
  split
  case h_1 => exact hrefl
  case h_2 current index hlast =>
    obtain ⟨hmem, huser⟩ := List.mem_filter.mp (List.mem_of_getLast? hlast)
    split
    case h_2 => exact hrefl
    case h_1 content hcontent =>
      split
      case isFalse => exact hrefl
      case isTrue =>
        exact forall₂_set (fun _ => .inl rfl) (List.mem_zipIdx_iff_getElem?.mp hmem)
          (.inr ⟨huser, content, _, hcontent, rfl⟩)

theorem Revised.formed (h : List.Forall₂ (Revised codec) l l')
    (hformed : Formed complete calls left l) : Formed complete calls left l' := by
  induction h generalizing calls left with
  | nil => exact hformed
  | @cons m m' l l' hm _ ih =>
    obtain rfl | ⟨huser, _, _, -, rfl⟩ := hm
    · cases htool : isTool m' with
      | true =>
        obtain ⟨hbelongs, hrest⟩ := (formed_tool htool).mp hformed
        exact (formed_tool htool).mpr ⟨hbelongs, ih hrest⟩
      | false =>
        obtain ⟨hleft, hrest⟩ := (formed_other htool).mp hformed
        exact (formed_other htool).mpr ⟨hleft, ih hrest⟩
    · obtain ⟨hleft, hrest⟩ := (formed_plain (plain_of_user huser)).mp hformed
      exact (formed_plain (plain_of_user huser)).mpr ⟨hleft, ih hrest⟩

theorem Revised.systems (h : List.Forall₂ (Revised codec) l l') :
    l'.filter isSystem = l.filter isSystem ∧ (l'.filter (!isSystem ·)).length = (l.filter (!isSystem ·)).length := by
  induction h with
  | nil => exact ⟨rfl, rfl⟩
  | @cons m m' l l' hm _ ih =>
    obtain rfl | ⟨huser, content, haystacks, -, rfl⟩ := hm
    · cases hsystem : isSystem m' <;> simp [hsystem, ih]
    · have hm := not_system_of_user huser
      have hm' : isSystem {m with content := .text (pruneText codec haystacks content)} = false := hm
      simp [hm, hm', ih]

theorem Revised.last (h : List.Forall₂ (Revised codec) l l') {last : Message} (hlast : l.getLast? = some last) :
    ∃ last', l'.getLast? = some last' ∧ Revised codec last last' := by
  induction h with
  | nil => cases hlast
  | @cons m m' l l' hm hrest ih =>
    cases hrest with
    | nil =>
      cases hlast
      exact ⟨m', rfl, hm⟩
    | cons => exact ih hlast

theorem Revised.isSystem_eq {m m' : Message} (h : Revised codec m m') : isSystem m' = isSystem m := by
  obtain rfl | ⟨-, _, _, -, rfl⟩ := h <;> rfl

/-- System messages are not revised. -/
theorem Revised.of_systems (h : List.Forall₂ (Revised codec) l l')
    (hsystems : ∀ m ∈ l, isSystem m = true) : l' = l := by
  induction h with
  | nil => rfl
  | @cons m m' l l' hm _ ih =>
    obtain rfl | ⟨huser, _, _, -, rfl⟩ := hm
    · rw [ih fun x hx => hsystems x (.tail _ hx)]
    · exact absurd (hsystems m (.head _)) (by rw [not_system_of_user huser]; exact Bool.false_ne_true)

theorem Revised.others (h : List.Forall₂ (Revised codec) l l')
    (hothers : ∀ m ∈ l, isSystem m = false) : ∀ m ∈ l', isSystem m = false := by
  induction h with
  | nil => exact nofun
  | @cons m m' l l' hm _ ih =>
    refine List.forall_mem_cons.mpr ⟨hm.isSystem_eq.trans (hothers m (.head _)), ih fun x hx => hothers x (.tail _ hx)⟩

/-- The last message of a list is the last of the system messages, if it is one. -/
theorem getLast?_systems {last : Message} (hlast : l.getLast? = some last) (hsystem : isSystem last = true) :
    (l.filter isSystem).getLast? = some last := by
  obtain ⟨before, rfl⟩ := List.getLast?_eq_some_iff.mp hlast
  simp [hsystem]

/-- Where the messages are too many, the system messages come first, and what is left of the last ones after them. -/
theorem capMessages_split (hlong : maxMessages < (l.filter (!isSystem ·)).length)
    (h : List.Forall₂ (Revised codec) (capMessages l) l') :
    ∃ others, l' = l.filter isSystem ++ others ∧ (∀ m ∈ others, isSystem m = false) ∧
      List.Forall₂ (Revised codec) (newest (l.filter (!isSystem ·))) others := by
  rw [capMessages_of_lt (Nat.not_le.mpr hlong)] at h
  have hsystems := (List.forall₂_take_append _ _ _ h.flip).flip
  have hothers := (List.forall₂_drop_append _ _ _ h.flip).flip
  refine ⟨_, ?_, Revised.others hothers fun m hm => others_of_newest hm, hothers⟩
  have htake : l'.take (l.filter isSystem).length = l.filter isSystem :=
      Revised.of_systems hsystems fun m hm => (List.mem_filter.mp hm).2
  calc l' = l'.take (l.filter isSystem).length ++ l'.drop (l.filter isSystem).length := (List.take_append_drop _ _).symm
    _ = _ := by rw [htake]

end Steps

/-- Where tools' messages answer the calls of the assistant's message before them, they do in the request.
It has the system messages with a payload in order; where the conversation has a tag, at most thirty others,
and where it has none, it is sent as it is. The last message stays the last one, but for lines of its
history. A system message that comes after more than thirty others is the last of the system messages, which
stand before what is left of these; what becomes of thirty answers and more at the end is left open. -/
theorem request_stays_formed {V : Type} (codec : Codec V) (complete : Prop)
    (messages : List Message) (hformed : WellFormed complete messages)
    (hlast : ∀ last, messages.getLast? = some last → isTool last = true ∨ hasPayload last = true) :
    WellFormed complete (cleanRequestMessages codec messages) ∧
      ((cleanRequestMessages codec messages).filter isSystem).filter hasPayload =
      (messages.filter isSystem).filter hasPayload ∧
      (tagged messages = true → ((cleanRequestMessages codec messages).filter (!isSystem ·)).length ≤ maxMessages) ∧
      (tagged messages = false → cleanRequestMessages codec messages = messages) ∧
      (∀ last, messages.getLast? = some last → (¬∃ ts : List Message, (∀ m ∈ ts, isTool m = true) ∧
        maxMessages ≤ ts.length ∧ ts <:+ messages) →
        isSystem last = false ∨ ((prepared codec messages).filter (!isSystem ·)).length ≤ maxMessages →
        (∃ last', (cleanRequestMessages codec messages).getLast? = some last' ∧ Revised codec last last')) ∧
      ∀ last, messages.getLast? = some last → tagged messages = true → isSystem last = true →
        maxMessages < ((prepared codec messages).filter (!isSystem ·)).length →
        ∃ systems others, cleanRequestMessages codec messages = systems ++ others ∧ (∀ m ∈ systems, isSystem m = true) ∧
          systems.getLast? = some last ∧ (∀ m ∈ others, isSystem m = false) ∧
          List.Forall₂ (Revised codec) (newest ((prepared codec messages).filter (!isSystem ·))) others := by
  rw [cleanRequestMessages]
  cases htagged : tagged messages with
  | false => exact ⟨hformed, rfl, nofun, fun _ => rfl, fun last hlast _ _ => ⟨last, hlast, .inl rfl⟩, nofun⟩
  | true =>
    have hkeeps : Keeps complete messages (prepared codec messages) := prepared_keeps hformed hlast
    have hcapped := capMessages_formed hkeeps.formed
    have hrevised : List.Forall₂ (Revised codec) (capMessages (prepared codec messages))
        (pruneCurrentHistory codec (capMessages (prepared codec messages))) :=
      prune_revises _
    obtain ⟨hsystems, hlength⟩ := Revised.systems hrevised
    rw [if_pos rfl]
    refine ⟨Revised.formed hrevised hcapped, ?_, fun _ => ?_, nofun,
      fun last hlast' hanswers hplace => ?_, fun last hlast' _ hsystem hlong => ?_⟩
    · rw [hsystems, capMessages_systems, hkeeps.systems]
    · rw [hlength]
      exact capMessages_length _
    · refine Revised.last hrevised ?_
      rw [capMessages_last hkeeps.formed (fun ⟨ts, hts, hlength, hsuffix⟩ =>
        hanswers ⟨ts, hts, hlength, hkeeps.answers ts hts hsuffix⟩), hkeeps.last, hlast']
      refine hplace.imp_left fun hsystem m hm => ?_
      rw [hkeeps.last, hlast'] at hm
      cases hm
      exact hsystem
    · obtain ⟨others, hsplit, hothers, hnewest⟩ := capMessages_split hlong hrevised
      exact ⟨_, others, hsplit, fun m hm => (List.mem_filter.mp hm).2,
        getLast?_systems (hkeeps.last.trans hlast') hsystem, hothers, hnewest⟩

/-- Texts as values, and the letters of ASCII. -/
def plainCodec : Codec Text where
  loads _ := none
  text := id
  isNull _ := false
  str := id
  dumps entries := entries.flatMap fun (key, value) => key ++ ": ".toList ++ value
  lower := List.map Char.toLower

def said (role text : String) : Message := ⟨role, .text text.toList, [], none⟩

/-- An earlier turn of a user with a history, a call with its answer, and the current turn. -/
def conversation : List Message :=
  [said "system" "rules",
    said "user" "<galaris_role>r</galaris_role><history>- Ann: hi</history>so",
    {said "assistant" "" with toolCalls := ["c"]},
    {said "tool" "done" with toolCallId := some "c"}, said "user" "<message-or-task>go</message-or-task>"]

theorem formed_conversation : WellFormed True conversation := by
  simp [WellFormed, Formed, conversation, said, isTool, Message.calls]

theorem conversation_stays_formed : WellFormed True (cleanRequestMessages plainCodec conversation) ∧
    cleanRequestMessages plainCodec conversation = said "system" "rules" :: said "user" "Ann: hi" ::
        said "user" "so" :: conversation.drop 2 := by
  refine ⟨(request_stays_formed plainCodec True conversation formed_conversation ?_).1, by decide +kernel⟩
  rintro last ⟨⟩
  exact .inr (by decide +kernel)

theorem formed_of_plain (h : ∀ m ∈ l, Plain m) : WellFormed complete l := by
  have hnil : WellFormed complete [] := fun _ => rfl
  have hformed := formed_before h hnil
  rwa [List.append_nil] at hformed

/-- Thirty-one messages without a tag are sent as they are; an empty system message is left out; and a
system message that comes after more than thirty others is moved before them. -/
theorem request_not_as_claimed :
    (WellFormed True (List.replicate 31 (said "user" "hi")) ∧
      ((cleanRequestMessages plainCodec (List.replicate 31 (said "user" "hi"))).filter (!isSystem ·)).length = 31) ∧
    (WellFormed True [said "system" "", said "user" "<reply_contract>"] ∧
      (cleanRequestMessages plainCodec [said "system" "", said "user" "<reply_contract>"]).filter isSystem = []) ∧
    (WellFormed True (List.replicate 31 (said "user" "<reply_contract>") ++ [said "system" "rules"]) ∧
      (cleanRequestMessages plainCodec
        (List.replicate 31 (said "user" "<reply_contract>") ++ [said "system" "rules"])).getLast? =
        some (said "user" "<reply_contract>")) := by
  have huser (text : String) : Plain (said "user" text) := plain_of_user rfl
  have hsystem (text : String) : Plain (said "system" text) := plain_of_system rfl
  refine ⟨⟨formed_of_plain fun m hm => ?_, by decide +kernel⟩, ⟨formed_of_plain fun m hm =>
    ?_, by decide +kernel⟩, formed_of_plain fun m hm => ?_, by decide +kernel⟩
  · rw [List.eq_of_mem_replicate hm]
    exact huser _
  · obtain rfl | hm := List.mem_cons.mp hm
    · exact hsystem _
    · rw [List.mem_singleton.mp hm]
      exact huser _
  · obtain hm | hm := List.mem_append.mp hm
    · rw [List.eq_of_mem_replicate hm]
      exact huser _
    · rw [List.mem_singleton.mp hm]
      exact hsystem _

end Galaris.Llm.MessageCleanup
