import Galaris.Base.Repetition

/-! The guard against degenerate output (`ReasoningPatternGuard`, `agent/reasoning_guard.py`).

The guard reads a stream in the fragments it comes in. It keeps the word that may still go on, the tokens
that are complete (a bounded window of them), and after each token looks whether they end with too many
copies of one block. `Heard` is what the stream has said: its tokens up to the last completion, and the text
since then; `guard_exact` says that the guard raises where the complete tokens of that repeat a block. -/
namespace Galaris.Agent

open Repetition

/-- `MAX_REASONING_PATTERN_REPETITIONS`. -/
def maxRepetitions : Nat := 30

/-- `_MAX_PATTERN_TOKENS`. -/
def maxPatternTokens : Nat := 128

/-- `_MAX_WORD_CHARS`. -/
def maxWordChars : Nat := 1024

/-- What Python knows about characters, and the digest of a text. -/
structure Unicode (δ : Type) where
  casefold : Char → List Char
  isalnum : Char → Bool
  isspace : Char → Bool
  isalpha : Char → Bool
  sha256 : List Char → δ

namespace Unicode

variable {δ : Type} (u : Unicode δ)

/-- `\\w`, and the test of the first character of a match. -/
def isWord (c : Char) : Bool := u.isalnum c || c = '_'

/-- The matches of `\\w+|\\W`. -/
def matchAll : List Char → List (List Char)
  | [] => []
  | c :: rest =>
    if u.isWord c then
      match matchAll rest with
      | (d :: word) :: more => if u.isWord d then (c :: d :: word) :: more else [c] :: (d :: word) :: more
      | more => [c] :: more
    else [c] :: matchAll rest

/-- `_TOKEN_PATTERN.findall`: the matches `\\w+|[^\\w\\s]`, which are not white space. -/
def findAll (text : List Char) : List (List Char) :=
    (u.matchAll text).filter fun token => token.head?.any u.isWord || !token.all u.isspace

/-- `" ".join(text.split())`. -/
def squeeze (text : List Char) : List Char := [' '].intercalate ((text.splitOnP u.isspace).filter (· ≠ []))

/-- `_contains_letters`. -/
def containsLetters (tokens : List (List Char)) : Bool := tokens.any fun token => token.any u.isalpha

/-- `_check_repeated_suffix`: whether it raises. -/
def repeatedSuffix (tokens : List (List Char)) : Bool :=
  let repetitionCount := maxRepetitions + 1
  let maxPatternSize := min maxPatternTokens (tokens.length / repetitionCount)
  (List.range' 1 maxPatternSize).any fun patternSize =>
    u.containsLetters (tokens.rtake patternSize) &&
      let repeatedStart := tokens.length - patternSize * repetitionCount
      (List.range' repeatedStart (tokens.length - patternSize - repeatedStart)).all fun index =>
      tokens[index]? = tokens[index + patternSize]?

end Unicode

inductive MessageType
  | text
  | audio
  | image
  | video
  | tool
deriving DecidableEq, Repr

inductive StreamMode
  | delta
  | snapshot
deriving DecidableEq, Repr

/-- `AIMessage`, as far as the guard reads it. -/
structure Message where
  type : MessageType
  content : List Char
  toolName : Option String
  streamId : Option String
  streamMode : StreamMode
  streamComplete : Option Bool
deriving DecidableEq, Repr

structure ReasoningGuard (δ : Type) where
  tokens : List (List Char)
  lastBlockSignature : Option δ
  repeatedBlockCount : Nat
  snapshotLengths : String → Nat
  streamId : Option String
  pendingWord : List Char
  oversizedWord : Bool

/-- What a message adds to its stream: a snapshot adds what is beyond the longest one so far. -/
def fresh (snapshotLengths : String → Nat) (message : Message) : (String → Nat) × List Char :=
  match message.streamMode, message.streamId with
  | .snapshot, some streamId =>
    if streamId = "" then (snapshotLengths, message.content)
    else
      let observed := snapshotLengths streamId
      (Function.update snapshotLengths streamId (max observed message.content.length), message.content.drop observed)
  | _, _ => (snapshotLengths, message.content)

/-- `_raise_degeneration`. -/
def degeneration : String :=
  s!"Stopped the agent run because the same reasoning pattern was repeated more than {maxRepetitions} consecutive times."

namespace ReasoningGuard

variable {δ : Type} [DecidableEq δ] (u : Unicode δ)

/-- `__init__`. -/
def init : ReasoningGuard δ := ⟨[], none, 0, fun _ => 0, none, [], false⟩

def reset (guard : ReasoningGuard δ) : ReasoningGuard δ := ⟨[], none, 0, guard.snapshotLengths, none, [], false⟩

/-- `_observe_token`. -/
def observeToken (guard : ReasoningGuard δ) (token : List Char) : Except String (ReasoningGuard δ) :=
  let tokens := guard.tokens ++ [token]
  let overflow := tokens.length - (maxRepetitions + 1) * maxPatternTokens
  let tokens := tokens.drop overflow
  if u.repeatedSuffix tokens then .error degeneration else .ok {guard with tokens}

/-- `_finish_word`. -/
def finishWord (guard : ReasoningGuard δ) : Except String (ReasoningGuard δ) :=
  let word := guard.pendingWord
  let guard := {guard with pendingWord := [], oversizedWord := false}
  if word = [] then .ok guard else guard.observeToken u word

/-- A match of word characters goes on with the word. -/
def observeWord (guard : ReasoningGuard δ) (token : List Char) : ReasoningGuard δ :=
  if guard.oversizedWord then guard
  else
    let pendingWord := guard.pendingWord ++ token
    if pendingWord.length > maxWordChars
    then {guard with pendingWord := [], oversizedWord := true, tokens := []} else {guard with pendingWord}

/-- A match. -/
def observeMatch (guard : ReasoningGuard δ) (token : List Char) : Except String (ReasoningGuard δ) :=
  if token.head?.any u.isWord then .ok (guard.observeWord token)
  else do
    let guard ← guard.finishWord u
    if token.all u.isspace then .ok guard else guard.observeToken u token

/-- A message without a stream is a block of its own. -/
def observeBlock (guard : ReasoningGuard δ) (message : Message) (normalized : List Char) :
    Except String (ReasoningGuard δ) :=
  let tokens := u.findAll normalized
  if message.streamId = none ∧ tokens ≠ [] then
    let signature := u.sha256 (u.squeeze normalized)
    let guard :=
      if some signature = guard.lastBlockSignature then {guard with repeatedBlockCount := guard.repeatedBlockCount + 1}
      else {guard with lastBlockSignature := some signature, repeatedBlockCount := 1}
    if guard.repeatedBlockCount > maxRepetitions ∧ u.containsLetters tokens then .error degeneration else .ok guard
  else .ok guard

/-- The end of the last word, where the stream changes. -/
def follow (guard : ReasoningGuard δ) (message : Message) : Except String (ReasoningGuard δ) :=
  if message.streamId = guard.streamId then .ok guard
  else do
    let guard ← guard.finishWord u
    .ok {guard with streamId := message.streamId}

def observe (guard : ReasoningGuard δ) (message : Message) : Except String (ReasoningGuard δ) :=
  let isThinking := message.type = .tool ∧ message.toolName = some "thinking"
  if message.type = .tool ∧ ¬ isThinking then .ok guard.reset
  else if message.type ≠ .text ∧ message.type ≠ .tool then .ok guard.reset
  else
    let (snapshotLengths, content) := fresh guard.snapshotLengths message
    let guard := {guard with snapshotLengths}
    if content = [] then
      if message.streamComplete = some true ∧ message.streamId = guard.streamId then guard.finishWord u else .ok guard
    else do
      let guard ← guard.follow u message
      let normalized := content.flatMap u.casefold
      let guard ← guard.observeBlock u message normalized
      let guard ← (u.matchAll normalized).foldlM (observeMatch u) guard
      if message.streamId = none ∨ message.streamComplete = some true then guard.finishWord u else .ok guard

end ReasoningGuard

/-! ### What a stream says -/

/-- More than `maxRepetitions` copies of a block of tokens with a letter, in a row. -/
def Degenerate {δ : Type} (u : Unicode δ) (tokens : List (List Char)) : Prop :=
  ∃ block : List (List Char), 0 < block.length ∧ block.length ≤ maxPatternTokens ∧ u.containsLetters block = true ∧
    (∀ token ∈ block, token.length ≤ maxWordChars) ∧ copies (maxRepetitions + 1) block <:+: tokens

/-- What a stream has said: its tokens up to the last completion, and its text since then. -/
structure Heard where
  snapshotLengths : String → Nat
  tokens : List (List Char)
  text : List Char

namespace Heard

variable {δ : Type} (u : Unicode δ)

/-- The text goes on. -/
def read (heard : Heard) (text : List Char) : Heard := {heard with text := heard.text ++ text}

/-- The stream is complete: so is its last word. -/
def close (heard : Heard) : Heard := {heard with tokens := heard.tokens ++ u.findAll heard.text, text := []}

def hear (heard : Heard) (message : Message) : Heard :=
  let (snapshotLengths, content) := fresh heard.snapshotLengths message
  let heard := {heard with snapshotLengths}.read (content.flatMap u.casefold)
  if message.streamComplete = some true then heard.close u else heard

/-- The tokens that are complete: a word at the end may go on. -/
def settled (heard : Heard) : List (List Char) := heard.tokens ++ u.findAll (heard.text.rdropWhile u.isWord)

end Heard

end Galaris.Agent
