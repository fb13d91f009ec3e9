import Galaris.Base.Transition
import Galaris.Document.DataValues

/-! The questions an AI activity asks its human requester (`process/activity_controls.py`).

`askInput` opens a question, or returns the answer that an equal request already has; `answerInput` records
the answer of the requester; `submitResult` records the result of the activity. The three work on the same
fields of one occurrence: the current question, the answered ones before it, and the result. -/
namespace Galaris.Process.ActivityControls

open Document Results Transition

/-! ### Values of the Process profile -/

section Profile
variable (O : DataValues.Outside)

/-- `normalize` of the Process profile. -/
def normalize (declared : List Variable) (values : Json) (path : String) : Except String (List (String × Json)) :=
  validateDeclarations O.boundary path declared >>= fun _ =>
    DataValues.normalize O declared values path false >>= fun result =>
      validateValues O.boundary path result >>= fun _ => .ok result

/-- `external_outputs` of the Process profile. -/
def externalOutputs (declared : List Variable) (raw : Json) (path : String) : Except String (List (String × Json)) :=
  validateDeclarations O.boundary path declared >>= fun _ =>
    DataValues.externalOutputs O declared raw path false >>= fun result =>
      validateValues O.boundary path result >>= fun _ => .ok result

end Profile

/-! ### Questions -/

/-- The answer of a question. -/
structure Answer where
  response : List (String × Json)
  answeredAt : String

/-- `activity_question`; its status is `answered` where there is an answer, and `pending` where there is none. -/
structure Question where
  id : String
  question : String
  outputs : List Variable
  userId : Nat
  key : Option String
  answer : Option Answer

def Question.answered (q : Question) : Bool := q.answer.isSome

/-- A question as it was opened. -/
def Question.asked (q : Question) : Question := { q with answer := none }

/-- A question as the context keeps it. -/
def Question.dump (q : Question) : Json :=
  .obj ([("id", .str q.id), ("question", .str q.question),
    ("outputs", .arr (q.outputs.map Variable.dump)), ("user_id", .int q.userId),
    ("status", .str (if q.answered then "answered" else "pending"))] ++
    (q.key.toList.map fun key => ("key", .str key)) ++
    (q.answer.toList.flatMap fun answer =>
      [("response", .obj answer.response), ("answered_at", .str answer.answeredAt)]))

/-- `activity_result`. -/
structure Receipt where
  output : List (String × Json)
  message : String

/-- What the three operations read and write of the context of an occurrence. -/
structure Activity where
  question : Option Question
  history : List Question
  result : Option Receipt

/-- An occurrence that has asked nothing. -/
def Activity.initial : Activity := ⟨none, [], none⟩

/-- Every question that was opened, the current one last. -/
def Activity.records (s : Activity) : List Question := s.history ++ s.question.toList

def Activity.pending (s : Activity) : List Question := s.records.filter fun q => !q.answered

/-- The declared outputs, by name. -/
def byName (outputs : List Variable) : Json := .obj (outputs.map fun v => (v.name, v.dump))

def sameVariables (stored requested : List Variable) : Bool := (byName stored).same (byName requested)

def sameRequest (key : Option String) (stored : Question) : Bool := key.isNone || stored.key == key

/-! ### The operations -/

/-- The node of the activity. -/
structure ActivityNode where
  id : String
  outputs : Option (List Variable)

/-- A call of `process_activity_question`. `accepting` is what `owned_activity` finds of the Task and the
run, `requester` the requester with an active account, `identity` a new `uuid4` and `staged` what
`request_task_input` does. -/
structure Ask where
  accepting : Except String Unit
  question : String
  variableList : Option (List Variable)
  key : Option String
  requester : Option Nat
  identity : String
  staged : Except String Unit

/-- A reply from messaging. `active` says that the account is active, `awaited` what the run and its attempt
are found to be, and `staged` what `answer_task_input` does. -/
structure Reply where
  questionId : String
  userId : Nat
  active : Bool
  output : Json
  awaited : Except String Unit
  staged : Except String Unit
  answeredAt : String

/-- A call of `process_activity_complete`; `consumed` is what `consume_task_input` does. -/
structure Submission where
  accepting : Except String Unit
  output : Json
  message : String
  consumed : Except String Unit

/-- What a call returns. -/
inductive Outcome
  | accepted
  | received
  | waitingForHuman (opened : Bool)
  | answered (question : String) (response : List (String × Json))

section Operations
variable (O : DataValues.Outside) (node : ActivityNode)

def Ask.declarations (a : Ask) : List Variable := a.variableList.getD (node.outputs.getD [])

/-- The checks of a request, before the context is read. -/
def Ask.check (a : Ask) : Except String Unit :=
  if Texts.stripString a.question = "" ∨ 12000 < (Texts.stripString a.question).length
    then .error "Provide a nonempty question of at most 12000 characters"
  else if a.key.any fun key => isBlank key || decide (128 < key.length)
    then .error "Provide a nonempty question_key of at most 128 characters"
  else validateDeclarations O.boundary "question.variables" (a.declarations node) >>= fun _ =>
    if a.declarations node = [] then .error "Declare the variables expected from the human answer" else .ok ()

/-- The first answered question of an equal request. A context without a question has no outputs, which no
request equals. -/
def recalled (key : Option String) (requested : List Variable) :
    List Question → Except String (Option (Question × Answer))
  | [] => .ok none
  | stored :: rest =>
    if key.isSome && sameRequest key stored && !sameVariables stored.outputs requested
      then .error "This question_key already identifies different variables"
    else match stored.answer with
      | some answer =>
        if sameRequest key stored && sameVariables stored.outputs requested
          then .ok (some (stored, answer)) else recalled key requested rest
      | none => recalled key requested rest

/-- The history with the question that a new one supersedes. -/
def superseded (s : Activity) : Except String (List Question) :=
  match s.question with
  | none => .ok s.history
  | some previous =>
    if 2000000 < DataValues.dumpsSize O.repr (.arr ((s.history ++ [previous]).map Question.dump))
      then .error "Activity question history exceeds its 2 MB limit"
    else .ok (s.history ++ [previous])

/-- The end of `ask_input`: a new question. -/
def openQuestion (a : Ask) (s : Activity) : Except String (Outcome × Activity) :=
  superseded O s >>= fun history =>
    match a.requester with
    | none => .error "This process has no active authenticated human requester"
    | some userId =>
      a.staged >>= fun _ =>
        .ok (.waitingForHuman true,
          { s with
            question := some ⟨a.identity, Texts.stripString a.question, a.declarations node, userId, a.key, none⟩,
            history })

/-- `ask_input`. -/
def askInput (a : Ask) (s : Activity) : Except String (Outcome × Activity) :=
  a.accepting >>= fun _ =>
    if s.result.isSome then .error "The activity already submitted its result"
    else a.check O node >>= fun _ => recalled a.key (a.declarations node)
        (s.question.toList ++ s.history.reverse) >>= fun found =>
      match found with
      | some (stored, answer) => .ok (.answered stored.question answer.response, s)
      | none =>
        match s.question.filter fun q => !q.answered with
        | some previous =>
          if sameVariables previous.outputs (a.declarations node) &&
            sameRequest a.key previous then .ok (.waitingForHuman false, s)
          else .error "This activity already has a pending human question"
        | none => openQuestion O node a s

/-- The question a reply is for: the current one, or one of the history. -/
def questionOf (s : Activity) (id : String) : Option Question :=
  (s.question.filter (·.id == id)).or (s.history.find? (·.id == id))

/-- `answer_input`. -/
def answerInput (r : Reply) (s : Activity) : Except String (Outcome × Activity) :=
  match questionOf s r.questionId with
  | none => .error "This reply does not match the current human question"
  | some pending =>
    if pending.userId ≠ r.userId then .error "This reply does not match the current human question"
    else if !r.active then .error "The human requester is inactive"
    else normalize O pending.outputs r.output "question.output" >>= fun result =>
      match pending.answer with
      | some answer =>
        if (Json.obj answer.response).same (.obj result) then .ok (.received, s)
          else .error "This question already has a different answer"
      | none =>
        r.awaited >>= fun _ => r.staged >>= fun _ =>
          .ok (.received, { s with question := some { pending with answer := some ⟨result, r.answeredAt⟩ } })

def Receipt.same (r r' : Receipt) : Bool := (Json.obj r.output).same (.obj r'.output) && r.message == r'.message

/-- `submit_result`. -/
def submitResult (c : Submission) (s : Activity) : Except String (Outcome × Activity) :=
  c.accepting >>= fun _ =>
    if s.question.any fun q => !q.answered then .error "Wait for the human answer before completing this activity"
    else match node.outputs with
      | none => .error "node.outputs is not None"
      | some outputs =>
        externalOutputs O outputs c.output (node.id ++ ".output") >>= fun result =>
          if s.result.any fun previous => !previous.same ⟨result, c.message⟩
            then .error "This activity already has a different result"
          else (if s.question.isSome then c.consumed else .ok ()) >>= fun _ =>
            .ok (.accepted, { s with result := some ⟨result, c.message⟩ })

/-- What is called on an occurrence. -/
inductive Event
  | ask (a : Ask)
  | answer (r : Reply)
  | submit (c : Submission)

def perform (s : Activity) : Event → Except String (Outcome × Activity)
  | .ask a => askInput O node a s
  | .answer r => answerInput O r s
  | .submit c => submitResult O node c s

/-- A call that fails is rolled back. -/
inductive Performs (s : Activity) : Event × Except String Outcome → Activity → Prop
  | done {event : Event} {outcome : Outcome} {t : Activity}
    (h : perform O node s event = .ok (outcome, t)) : Performs s (event, .ok outcome) t
  | failed {event : Event} {message : String} (h : perform O node s event = .error message) :
    Performs s (event, .error message) s

/-- The question that a call has opened. -/
def opened : Event × Except String Outcome → Option Question
  | (.ask a, .ok (.waitingForHuman true)) =>
    a.requester.map fun userId =>
      ⟨a.identity, Texts.stripString a.question, a.declarations node, userId, a.key, none⟩
  | _ => none

/-- The identities that the calls have drawn. -/
def drawn : Event × Except String Outcome → Option String
  | (.ask a, _) => some a.identity
  | _ => none

end Operations

/-! ### What each operation can do -/

section Cases
variable {O : DataValues.Outside} {node : ActivityNode}

/-- What every question that is opened meets. -/
structure Checked (O : DataValues.Outside) (q : Question) : Prop where
  valid : validateDeclarations O.boundary "question.variables" q.outputs = .ok ()
  nonempty : q.outputs ≠ []
  key : (q.key.any fun key => isBlank key || decide (128 < key.length)) = false

/-- The checks of a request: its text, its key and its declarations. -/
theorem check_eq_ok {a : Ask} : a.check O node = .ok () ↔
    (Texts.stripString a.question ≠ "" ∧ (Texts.stripString a.question).length ≤ 12000) ∧
    (a.key.any fun key => isBlank key || decide (128 < key.length)) = false ∧
      validateDeclarations O.boundary "question.variables" (a.declarations node) = .ok () ∧
          a.declarations node ≠ [] := by
  unfold Ask.check
  by_cases htext : Texts.stripString a.question = "" ∨ 12000 < (Texts.stripString a.question).length
  · rw [if_pos htext]
    refine iff_of_false nofun fun h => ?_
    exact htext.elim h.1.1 fun hlong => absurd h.1.2 (Nat.not_le.mpr hlong)
  · rw [if_neg htext]
    rw [not_or, Nat.not_lt] at htext
    cases hkey : a.key.any fun key => isBlank key || decide (128 < key.length) with
    | true => exact iff_of_false nofun fun h => nomatch h.2.1
    | false =>
      rw [if_neg Bool.false_ne_true, bind_eq_ok]
      refine ⟨fun ⟨_, hvalid, hnonempty⟩ => ⟨htext, rfl, hvalid, fun hempty => ?_⟩,
        fun h => ⟨(), h.2.2.1, if_neg h.2.2.2⟩⟩
      rw [if_pos hempty] at hnonempty
      cases hnonempty

/-- Where nothing is recalled, no answered question has the key. -/
theorem recall_none {key : String} {requested : List Variable} {stored : List Question}
    (h : recalled (some key) requested stored = .ok none) :
    ∀ q ∈ stored, q.answered = true → q.key ≠ some key := by
  induction stored with
  | nil => exact fun _ hq => absurd hq List.not_mem_nil
  | cons first rest ih =>
    rw [recalled] at h
    split at h
    case isTrue => cases h
    case isFalse hconsistent =>
      rw [List.forall_mem_cons]
      split at h
      case h_1 given hgiven =>
        split at h
        case isTrue => cases h
        case isFalse hdiffers =>
          refine ⟨fun _ hkey => ?_, ih h⟩
          have hsame : sameRequest (some key) first = true := by simp [sameRequest, hkey]
          cases hvariables : sameVariables first.outputs requested with
          | true => simp [hsame, hvariables] at hdiffers
          | false => simp [hsame, hvariables] at hconsistent
      case h_2 hnone => exact ⟨fun hanswered => by simp [Question.answered, hnone] at hanswered, ih h⟩

/-- An answered question is recalled by its key and its variables, where no other question has the key. -/
theorem recall_answered {key : String} {requested : List Variable} {stored : List Question}
    {q : Question} {answer : Answer} (hq : q ∈ stored)
    (hkeys : (stored.filterMap Question.key).Nodup) (hkey : q.key = some key) (hanswer : q.answer = some answer)
    (hsame : sameVariables q.outputs requested = true) :
    recalled (some key) requested stored = .ok (some (q, answer)) := by
  induction stored with
  | nil => exact absurd hq List.not_mem_nil
  | cons first rest ih =>
    obtain rfl | hrest := List.mem_cons.mp hq
    · simp [recalled, sameRequest, hkey, hsame, hanswer]
    · have hmem : key ∈ rest.filterMap Question.key := List.mem_filterMap.mpr ⟨q, hrest, hkey⟩
      have hother : (first.key == some key) = false := by
        rw [beq_eq_false_iff_ne]
        intro heq
        rw [List.filterMap_cons_some heq, List.nodup_cons] at hkeys
        exact hkeys.1 hmem
      have hkeys : (rest.filterMap Question.key).Nodup :=
          hkeys.sublist ((List.sublist_cons_self first rest).filterMap _)
      have ih := ih hrest hkeys
      cases hgiven : first.answer <;> simp [recalled, sameRequest, hother, hgiven, ih]

/-- A question is opened where none is pending. -/
theorem openQuestion_cases {a : Ask} {s t : Activity} {outcome : Outcome}
    (h : openQuestion O node a s = .ok (outcome, t)) :
    ∃ userId, a.requester = some userId ∧ outcome = .waitingForHuman true ∧ t.history = s.records ∧
    t.result = s.result ∧
      t.question = some ⟨a.identity, Texts.stripString a.question, a.declarations node, userId, a.key, none⟩ := by
  rw [openQuestion, bind_eq_ok] at h
  obtain ⟨history, hhistory, h⟩ := h
  have hrecords : history = s.records := by
    unfold superseded at hhistory
    unfold Activity.records
    split at hhistory
    case h_1 hnone =>
      rw [hnone]
      exact (Except.ok.inj hhistory).symm.trans (List.append_nil _).symm
    case h_2 previous hsome =>
      split_ifs at hhistory
      rw [hsome]
      exact (Except.ok.inj hhistory).symm
  split at h
  case h_1 => cases h
  case h_2 userId huser =>
    rw [bind_eq_ok] at h
    obtain ⟨-, -, h⟩ := h
    cases h
    exact ⟨userId, huser, rfl, hrecords, rfl, rfl⟩

/-- A request returns what is there, or opens a question; then there is no result, every question is
answered and none has the key. -/
theorem askInput_cases {a : Ask} {s t : Activity} {outcome : Outcome} (h : askInput O node a s = .ok (outcome, t)) :
    (t = s ∧ outcome ≠ .waitingForHuman true) ∨
      s.result.isSome = false ∧ (∀ q ∈ s.question, q.answered = true) ∧
        (∀ key, a.key = some key → ∀ q ∈ s.records, q.answered = true → q.key ≠ some key) ∧ a.check O node = .ok () ∧
        ∃ userId, a.requester = some userId ∧ outcome = .waitingForHuman true ∧
        t.history = s.records ∧ t.result = s.result ∧
          t.question = some ⟨a.identity, Texts.stripString a.question, a.declarations node, userId, a.key, none⟩ := by
  rw [askInput, bind_eq_ok] at h
  obtain ⟨-, -, h⟩ := h
  split at h
  case isTrue => cases h
  case isFalse hresult =>
    simp only [bind_eq_ok] at h
    obtain ⟨⟨⟩, hcheck, found, hfound, h⟩ := h
    split at h
    case h_1 stored answer =>
      cases h
      exact .inl ⟨rfl, fun hwaiting => by cases hwaiting⟩
    case h_2 =>
      split at h
      case h_1 previous hprevious =>
        split at h
        · cases h
          exact .inl ⟨rfl, fun hwaiting => by cases hwaiting⟩
        · cases h
      case h_2 hidle =>
        refine .inr ⟨Bool.eq_false_iff.mpr hresult, fun q hq => ?_, fun key hkey q hq => ?_, hcheck,
          openQuestion_cases h⟩
        · rw [Option.filter_eq_none_iff] at hidle
          simpa using hidle q hq
        · rw [hkey] at hfound
          refine recall_none hfound q ?_
          rw [Activity.records, List.mem_append] at hq
          rw [List.mem_append, List.mem_reverse]
          exact hq.symm

/-- A reply changes nothing, or answers a question that was pending. -/
theorem answerInput_cases {r : Reply} {s t : Activity} {outcome : Outcome} (h : answerInput O r s = .ok (outcome, t)) :
    outcome = .received ∧ (t = s ∨ ∃ pending answer, questionOf s r.questionId = some pending ∧ pending.answer = none ∧
      t = { s with question := some { pending with answer := some answer } }) := by
  unfold answerInput at h
  split at h
  case h_1 => cases h
  case h_2 pending hpending =>
    split_ifs at h
    rw [bind_eq_ok] at h
    obtain ⟨result, -, h⟩ := h
    split at h
    case h_1 answer hanswer =>
      split_ifs at h
      cases h
      exact ⟨rfl, .inl rfl⟩
    case h_2 hnone =>
      simp only [bind_eq_ok] at h
      obtain ⟨-, -, -, -, h⟩ := h
      cases h
      exact ⟨rfl, .inr ⟨pending, _, hpending, hnone, rfl⟩⟩

/-- A result is accepted where no question is pending. -/
theorem submitResult_cases {c : Submission} {s t : Activity} {outcome : Outcome}
    (h : submitResult O node c s = .ok (outcome, t)) :
    outcome = .accepted ∧ (∀ q ∈ s.question, q.answered = true) ∧ ∃ receipt, t = { s with result := some receipt } := by
  rw [submitResult, bind_eq_ok] at h
  obtain ⟨-, -, h⟩ := h
  split at h
  case isTrue => cases h
  case isFalse hidle =>
    split at h
    case h_1 => cases h
    case h_2 outputs houtputs =>
      rw [bind_eq_ok] at h
      obtain ⟨result, -, h⟩ := h
      split at h
      case isTrue => cases h
      case isFalse =>
        rw [bind_eq_ok] at h
        obtain ⟨-, -, h⟩ := h
        cases h
        refine ⟨rfl, fun q hq => ?_, _, rfl⟩
        simp [Option.mem_def.mp hq] at hidle
        exact hidle

end Cases

/-! ### Runs -/

section Runs
variable {O : DataValues.Outside} {node : ActivityNode}

/-- What holds of an occurrence: only the current question may be pending, none is with a result, and no key
is used twice. -/
structure Inv (O : DataValues.Outside) (s : Activity) : Prop where
  checked : ∀ q ∈ s.records, Checked O q
  history : ∀ q ∈ s.history, q.answered = true
  result : s.result.isSome = true → ∀ q ∈ s.question, q.answered = true
  keys : (s.records.filterMap Question.key).Nodup

theorem inv_initial : Inv O Activity.initial :=
  ⟨fun _ h => absurd h List.not_mem_nil, fun _ h => absurd h List.not_mem_nil, nofun, List.nodup_nil⟩

/-- The question that a reply may answer is the current one. -/
theorem questionOf_pending {s : Activity} (h : ∀ q ∈ s.history, q.answered = true) {id : String}
    {pending : Question} (hpending : questionOf s id = some pending)
    (hnone : pending.answer = none) : s.question = some pending := by
  rw [questionOf, Option.or_eq_some_iff] at hpending
  obtain hcurrent | ⟨-, hhistory⟩ := hpending
  · exact (Option.filter_eq_some_iff.mp hcurrent).1
  · have := h pending (List.mem_of_find?_eq_some hhistory)
    rw [Question.answered, hnone] at this
    cases this

/-- What a call does to an occurrence: nothing, or it opens a question, answers the pending one, or records a result. -/
inductive Change (O : DataValues.Outside) (s : Activity) : Option Question → Activity → Prop
  | same : Change O s none s
  | ask {q : Question} (hresult : s.result.isSome = false) (hidle : ∀ q ∈ s.question,
    q.answered = true) (hanswer : q.answer = none) (hchecked : Checked O q)
      (hkey : ∀ key, q.key = some key → ∀ r ∈ s.records, r.key ≠ some key) :
      Change O s (some q) { s with question := some q, history := s.records }
  | answer {q : Question} (answer : Answer) (hcurrent : s.question = some q) (hpending : q.answer = none) :
      Change O s none { s with question := some { q with answer := some answer } }
  | submit (receipt : Receipt) (hidle : ∀ q ∈ s.question, q.answered = true) :
    Change O s none { s with result := some receipt }

theorem Inv.answered_of_idle {s : Activity} (h : Inv O s)
    (hidle : ∀ q ∈ s.question, q.answered = true) : ∀ q ∈ s.records, q.answered = true := by
  intro q hq
  rw [Activity.records, List.mem_append, Option.mem_toList] at hq
  exact hq.elim (h.history q) (hidle q)

/-- Every call is one of these changes. -/
theorem performs_change {s t : Activity} {label : Event × Except String Outcome} (h : Inv O s)
    (hstep : Performs O node s label t) :
    Change O s (opened node label) t := by
  cases hstep with
  | @failed event message hfailed => cases event <;> exact .same
  | @done event outcome t hdone =>
    cases event with
    | ask a =>
      obtain ⟨rfl, hnot⟩ | ⟨hresult, hidle, hkeys, hcheck, userId, huser, rfl, hhistory, hkept,
        hquestion⟩ := askInput_cases hdone
      · have hnone : opened node (.ask a, .ok outcome) = none := by
          cases outcome with
          | waitingForHuman new => cases new <;> first | rfl | exact absurd rfl hnot
          | accepted | received | answered => rfl
        rw [hnone]
        exact .same
      · have hopened : opened node (.ask a, .ok (.waitingForHuman true)) = some ⟨a.identity,
            Texts.stripString a.question, a.declarations node, userId, a.key, none⟩ := by
          rw [opened, huser]
          rfl
        obtain ⟨question, history, result⟩ := t
        subst hquestion hhistory hkept
        obtain ⟨-, hkey, hvalid, hnonempty⟩ := check_eq_ok.mp hcheck
        rw [hopened]
        exact .ask hresult hidle rfl ⟨hvalid, hnonempty, hkey⟩ fun key hkey q hq =>
          hkeys key hkey q hq (h.answered_of_idle hidle q hq)
    | answer r =>
      obtain ⟨rfl, rfl | ⟨pending, answer, hpending, hnone, rfl⟩⟩ := answerInput_cases hdone
      · exact .same
      · exact .answer answer (questionOf_pending h.history hpending hnone) hnone
    | submit c =>
      obtain ⟨rfl, hidle, receipt, rfl⟩ := submitResult_cases hdone
      exact .submit receipt hidle

theorem records_of_current {s : Activity} {q : Question} (h : s.question = some q) : s.records = s.history ++ [q] := by
  rw [Activity.records, h, Option.toList_some]

/-- The invariant survives a change. -/
theorem Change.inv {s t : Activity} {new : Option Question} (hchange : Change O s new t) (h : Inv O s) : Inv O t := by
  cases hchange with
  | same => exact h
  | @ask q hresult hidle hanswer hchecked hkey =>
    refine ⟨?_, h.answered_of_idle hidle, fun hsome => ?_, ?_⟩
    · rw [records_of_current rfl, List.forall_mem_append, List.forall_mem_singleton]
      exact ⟨h.checked, hchecked⟩
    · exact absurd (hsome.symm.trans hresult) nofun
    · rw [records_of_current rfl, List.filterMap_append, List.nodup_append]
      refine ⟨h.keys, ?_, ?_⟩
      · cases hq : q.key <;> simp [hq]
      · intro key hmem key' hmem' heq
        obtain ⟨r, hr, hrkey⟩ := List.mem_filterMap.mp hmem
        obtain ⟨q', hq', hqkey⟩ := List.mem_filterMap.mp hmem'
        rw [List.mem_singleton] at hq'
        subst hq' heq
        exact hkey key hqkey r hr hrkey
  | @answer q answer hcurrent hpending =>
    refine ⟨?_, h.history, fun _ q' hq' => ?_, ?_⟩
    · have := h.checked
      rw [records_of_current hcurrent, List.forall_mem_append, List.forall_mem_singleton] at this
      rw [records_of_current rfl, List.forall_mem_append, List.forall_mem_singleton]
      exact ⟨this.1, this.2.valid, this.2.nonempty, this.2.key⟩
    · cases hq'
      rfl
    · have := h.keys
      rw [records_of_current hcurrent, List.filterMap_append] at this
      rw [records_of_current rfl, List.filterMap_append]
      exact this
  | submit receipt hidle => exact ⟨h.checked, h.history, fun _ => hidle, h.keys⟩

/-- The records, as they were asked, grow by the question that is opened. -/
theorem Change.asked {s t : Activity} {new : Option Question} (hchange : Change O s new t) :
    t.records.map Question.asked = s.records.map Question.asked ++ new.toList := by
  cases hchange with
  | same | submit => exact (List.append_nil _).symm
  | @ask q _ _ hanswer _ _ =>
    rw [records_of_current rfl, List.map_append]
    obtain ⟨id, question, outputs, userId, key, answer⟩ := q
    subst hanswer
    rfl
  | @answer q answer hcurrent hpending =>
    rw [records_of_current hcurrent, records_of_current rfl, List.map_append, List.map_append,
      Option.toList_none, List.append_nil]
    rfl

/-- What is answered is kept as it is. -/
theorem Change.answered {s t : Activity} {new : Option Question} (hchange : Change O s new t)
    {q : Question} (hq : q ∈ s.records) (hanswered : q.answered = true) :
    q ∈ t.records := by
  cases hchange with
  | same | submit => exact hq
  | ask => exact List.mem_append_left _ hq
  | @answer pending answer hcurrent hpending =>
    rw [records_of_current hcurrent, List.mem_append, List.mem_singleton] at hq
    obtain hhistory | rfl := hq
    · exact List.mem_append_left _ hhistory
    · rw [Question.answered, hpending] at hanswered
      cases hanswered

abbrev Log := List (Event × Except String Outcome)

theorem inv_run {s t : Activity} {log : Log} (h : Steps (Performs O node) s log t) (hs : Inv O s) : Inv O t := by
  refine h.invariant (fun s label t hinv hstep => ?_) hs
  exact (performs_change hinv hstep).inv hinv

/-- The records of a run are the questions it has opened, in order. -/
theorem asked_run {s : Activity} {log : Log} (h : Steps (Performs O node) Activity.initial log s) :
    s.records.map Question.asked = log.filterMap (opened node) := by
  have hrecorded : Inv O s ∧ s.records.map Question.asked = ([] ++ log).filterMap (opened node) := by
    refine Steps.recorded (P := fun as s => Inv O s ∧
      s.records.map Question.asked = as.filterMap (opened node)) ?_ h ⟨inv_initial, rfl⟩
    intro as s label t hs hstep
    have hchange := performs_change hs.1 hstep
    refine ⟨hchange.inv hs.1, ?_⟩
    rw [hchange.asked, hs.2, List.filterMap_append]
    cases hopened : opened node label <;> simp [hopened]
  exact hrecorded.2

/-- What is answered is kept by a run. -/
theorem answered_run {s t : Activity} {log : Log} (h : Steps (Performs O node) s log t)
    (hs : Inv O s) {q : Question} (hq : q ∈ s.records)
    (hanswered : q.answered = true) : q ∈ t.records := by
  have hboth : Inv O t ∧ q ∈ t.records := by
    refine h.invariant (P := fun s => Inv O s ∧ q ∈ s.records) (fun s label t hinv hstep => ?_) ⟨hs, hq⟩
    have hchange := performs_change hinv.1 hstep
    exact ⟨hchange.inv hinv.1, hchange.answered hinv.2 hanswered⟩
  exact hboth.2

theorem opened_id {label : Event × Except String Outcome} {q : Question}
    (h : opened node label = some q) : drawn label = some q.id := by
  unfold opened at h
  split at h
  case h_1 a =>
    obtain ⟨userId, -, rfl⟩ := Option.map_eq_some_iff.mp h
    rfl
  case h_2 => cases h

/-- A new identity for every question gives every record its own. -/
theorem ids_nodup {s : Activity} {log : Log} (h : Steps (Performs O node) Activity.initial log s)
    (hfresh : (log.filterMap drawn).Nodup) :
    (s.records.map Question.id).Nodup := by
  have hids : s.records.map Question.id = (log.filterMap (opened node)).map Question.id := by
    rw [← asked_run h, List.map_map]
    rfl
  rw [hids]
  refine hfresh.sublist ?_
  clear h hids hfresh
  induction log with
  | nil => exact .slnil
  | cons label rest ih =>
    cases hopened : opened node label with
    | some q =>
      rw [List.filterMap_cons_some hopened, List.filterMap_cons_some (opened_id hopened)]
      exact ih.cons_cons q.id
    | none =>
      rw [List.filterMap_cons_none hopened]
      exact ih.trans ((List.sublist_cons_self label rest).filterMap drawn)

theorem pending_eq {s : Activity} (h : Inv O s) : s.pending = (s.question.filter fun q => !q.answered).toList := by
  rw [Activity.pending, Activity.records, List.filter_append,
    List.filter_eq_nil_iff.mpr fun q hq => by simp [h.history q hq], List.nil_append]
  cases s.question with
  | none => rfl
  | some q => cases hq : q.answered <;> simp [Option.filter, hq]

theorem nonempty_of_same {stored requested : List Variable} (hempty : requested = [])
    (hsame : sameVariables stored requested = true) : stored = [] := by
  subst hempty
  rw [sameVariables, byName, byName, Json.same, Bool.and_eq_true, beq_iff_eq, List.length_map, List.length_map] at hsame
  exact List.eq_nil_of_length_eq_zero hsame.1

/-- An answered question answers every equal request, as long as there is no result. -/
theorem askInput_again {s : Activity} (h : Inv O s) {q : Question} {answer : Answer} {key : String}
    (hq : q ∈ s.records) (hanswer : q.answer = some answer)
    (hkey : q.key = some key) (hresult : s.result = none) {a : Ask}
    (haccepting : a.accepting = .ok ()) (hakey : a.key = some key)
    (htext : Texts.stripString a.question ≠ "" ∧ (Texts.stripString a.question).length ≤ 12000)
    (hvalid : validateDeclarations O.boundary "question.variables" (a.declarations node) = .ok ())
    (hsame : sameVariables q.outputs (a.declarations node) = true) :
    askInput O node a s = .ok (.answered q.question answer.response, s) := by
  have hperm : (s.question.toList ++ s.history.reverse).Perm s.records :=
    (List.Perm.append_left _ s.history.reverse_perm).trans List.perm_append_comm
  have hrecalled : recalled (some key) (a.declarations node)
      (s.question.toList ++ s.history.reverse) = .ok (some (q, answer)) :=
    recall_answered (hperm.mem_iff.mpr hq) ((hperm.filterMap _).nodup_iff.mpr h.keys) hkey hanswer hsame
  have hcheck : a.check O node = .ok () := by
    refine check_eq_ok.mpr ⟨htext, ?_, hvalid, fun hempty => (h.checked q hq).nonempty ?_⟩
    · rw [hakey, ← hkey]
      exact (h.checked q hq).key
    · exact nonempty_of_same hempty hsame
  refine bind_eq_ok.mpr ⟨(), haccepting, ?_⟩
  rw [hresult, Option.isSome_none, if_neg Bool.false_ne_true, hakey]
  exact bind_eq_ok.mpr ⟨(), hcheck, bind_eq_ok.mpr ⟨_, hrecalled, rfl⟩⟩

private def outside : DataValues.Outside := ⟨fun _ => .error "invalid", fun _ => ""⟩

private def age : Variable := ⟨"age", .int, false, none⟩

private def collect : ActivityNode := ⟨"collect", some [age]⟩

private def askAge : Ask := ⟨.ok (), "Age?", none, some "age", some 7, "q1", .ok ()⟩

private def ageReply : Reply :=
    ⟨"q1", 7, true, .obj [("age", DataValues.typed .int (.int 37))], .ok (), .ok (), "2026-01-01"⟩

private def ageResult : Submission := ⟨.ok (), .obj [("age", .int 37)], "", .ok ()⟩

private def ageQuestion : Question := ⟨"q1", "Age?", [age], 7, some "age", none⟩

private def answeredAge : Question :=
    { ageQuestion with answer := some ⟨[("age", DataValues.typed .int (.int 37))], "2026-01-01"⟩ }

private theorem age_asked : Performs outside collect Activity.initial
    (.ask askAge, .ok (.waitingForHuman true)) ⟨some ageQuestion, [], none⟩ :=
  .done rfl

private theorem age_answered : Performs outside collect ⟨some ageQuestion, [], none⟩
    (.answer ageReply, .ok .received) ⟨some answeredAge, [], none⟩ :=
  .done rfl

private theorem age_submitted : Performs outside collect ⟨some answeredAge, [], none⟩ (.submit ageResult, .ok .accepted)
    ⟨some answeredAge, [], some ⟨[("age", DataValues.typed .int (.int 37))], ""⟩⟩ :=
  .done rfl

private theorem age_run : Steps (Performs outside collect) Activity.initial
    [(.ask askAge, .ok (.waitingForHuman true)), (.answer ageReply, .ok .received)] ⟨some answeredAge, [], none⟩ :=
  .cons age_asked (.cons age_answered (.nil _))

end Runs

end Galaris.Process.ActivityControls
