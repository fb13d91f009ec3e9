import Galaris.FileShare.Catalogue
import Mathlib.Algebra.Order.Ring.Int

/-! The discovery of the files of one binding (`app/file_share/indexing.py`).

A turn lists one page of the collection at the head of the frontier, under a savepoint: where it raises,
only the retry is written. The memory nodes and their links are left out. -/
namespace Galaris.FileShare.Indexing

open Percent Catalogue

/-- The exception classes that a turn tells apart. -/
inductive Raised
  | valueError
  | permissionError
  | resourceRevisionConflict
  | integrityError
  | other (name : String)
deriving DecidableEq, Repr

/-- `FileIndexRun.error_type`. -/
inductive ErrorType
  | depthLimit
  | frontierLimit
  | unpageableListing
  | dreamAttemptsExhausted
  | raised (error : Raised)
deriving DecidableEq, Repr

inductive Status
  | queued
  | running
  | retry
  | success
  | partially
  | error
  | excluded
  | cancelled
deriving DecidableEq, Repr

namespace Status

def queues : Status → Bool
  | .queued | .running | .retry => true
  | _ => false

end Status

/-- What the identity of a subject is the hash of. -/
structure Identity where
  uri : Text
  cursor : Option Text
  depth : Option Nat
  scanned : Nat
deriving DecidableEq, Repr

structure Frame where
  uri : Text
  cursor : Option Text
  depth : Nat
  dreamIdentity : Option Identity
deriving DecidableEq, Repr

structure IndexRun where
  rootUri : Text
  status : Status
  frontier : List Frame
  startedAt : Nat
  nextAttemptAt : Nat
  scanned : Nat
  directories : Nat
  attempts : Nat
  maxEntries : Nat
  maxDepth : Nat
  errorType : Option ErrorType
deriving DecidableEq, Repr

structure Listing where
  entries : List Descriptor
  truncated : Bool
  nextCursor : Option Text
deriving DecidableEq, Repr

/-- What a turn meets: the binding is excluded by now, something that it calls raises, or the provider answers;
`excluded` are the resources of the answer that do not belong to the binding. -/
inductive Answer
  | excluded
  | fails (error : Raised)
  | page (parent : Descriptor) (listing : Listing) (excluded : List Text)
deriving DecidableEq, Repr

/-- `start_index_run`, of a binding that is traversed. -/
def startIndexRun (root : Text) (maxEntries maxDepth now : Nat) : Except Raised IndexRun :=
  if !(1 ≤ maxEntries && maxEntries ≤ 1000000) || 64 < maxDepth then .error .valueError
  else if 8192 < root.length then .error .valueError
  else .ok ⟨root, .queued, [⟨root, none, 0, none⟩], now, now, 0, 0, 0, maxEntries, maxDepth, none⟩

/-- What the URIs below a collection begin with. -/
def stem (uri : Text) : Text := if "://".toList.isSuffixOf uri then uri else directory uri

/-- The URI is directly below the collection. -/
def direct (uri other : Text) : Bool :=
    (stem uri).isPrefixOf other && !(trimmed (other.drop (stem uri).length)).contains '/'

/-- The entries that a complete listing of the collection proves to be absent. -/
def absent (c : State) (uri : Text) (before : Nat) : List Entry :=
  c.entries.filter fun entry =>
    entry.present && entry.lastSeenAt < before && entry.startedAt < before && direct uri entry.uri

/-- A violated constraint is an `IntegrityError`. -/
def observed : Except Violation State → Except Raised State
  | .ok c => .ok c
  | .error .uniqueKey => .error .integrityError

/-- `_reconcile_directory`. -/
def reconcileDirectory (c : State) (uri : Text) (before : Nat) : Except Violation State :=
  (absent c uri before).foldlM (fun c entry => c.observeDeletion before entry.uri) c

namespace IndexRun

def limited (run : IndexRun) : Bool := run.errorType = some .depthLimit || run.errorType = some .frontierLimit

def budget (run : IndexRun) : Nat := min 500 (run.maxEntries - run.scanned)

/-- A child of the listed collection is put at the end of the frontier. -/
def enqueue (run : IndexRun) (depth : Nat) (entry : Descriptor) : IndexRun :=
  if entry.isCollection then
    if run.maxDepth ≤ depth then {run with errorType := some .depthLimit}
    else if run.frontier.any (·.uri = entry.uri) then run
    else if 4096 ≤ run.frontier.length || 8192 < entry.uri.length then {run with errorType := some .frontierLimit}
    else {run with frontier := run.frontier ++ [⟨entry.uri, none, depth + 1, none⟩]}
  else run

/-- The end of a page. -/
def settle (run : IndexRun) (frontier : List Frame) (now : Nat) : IndexRun :=
  {run with
    frontier
    status := if frontier ≠ [] then .running else if run.limited then .partially else .success
    attempts := 0
    nextAttemptAt := now}

/-- What is counted and enqueued of a page. -/
def scan (run : IndexRun) (depth : Nat) (entries : List Descriptor) : IndexRun :=
  entries.foldl (fun run entry => run.enqueue depth entry)
    {run with errorType := if run.limited then run.errorType else none, scanned := run.scanned + entries.length}

/-- `_discovery_subject`. -/
def subject (run : IndexRun) : Identity :=
  match run.frontier with
  | frame :: _ => frame.dreamIdentity.getD ⟨frame.uri, frame.cursor, some frame.depth, run.scanned⟩
  | [] => ⟨run.rootUri, none, none, run.scanned⟩

end IndexRun

/-- An empty cursor is none. -/
def Listing.next (listing : Listing) : Option Text := listing.nextCursor.filter (· ≠ [])

/-- The checks of a listing, before its entries are observed. -/
def checkListing (uri : Text) (listing : Listing) (excluded : List Text) : Except Raised Unit :=
  if listing.next.any (65536 < ·.length) then .error .valueError
  else
    listing.entries.forM fun entry =>
      if !direct uri entry.uri then .error .valueError
      else if entry.uri ∈ excluded then .error .permissionError
      else .ok ()

/-- The page of a provider, at the head of the frontier. -/
def acceptPage (run : IndexRun) (c : State) (now seenAt : Nat) (frame : Frame) (parent : Descriptor)
    (listing : Listing) (excluded : List Text) :
    Except Raised (IndexRun × State) := do
  checkListing frame.uri listing excluded
  let c ← observed (c.observeDescriptors now seenAt (parent :: listing.entries))
  let scanned := run.scan frame.depth listing.entries
  if listing.truncated then
    match listing.next with
    | none =>
      return ({scanned with frontier := run.frontier, status := .partially, errorType := some .unpageableListing}, c)
    | some next =>
      if frame.cursor = some next then throw .valueError
      else return (scanned.settle
        ({frame with cursor := some next, dreamIdentity := none} :: scanned.frontier.tail) now, c)
  else
    let c ← observed (reconcileDirectory c frame.uri run.startedAt)
    return ({scanned with directories := run.directories + 1}.settle scanned.frontier.tail now, c)

/-- `process_index_page`. -/
def processIndexPage (run : IndexRun) (c : State) (now seenAt : Nat) : Answer → Except Raised (IndexRun × State)
  | .excluded => .ok ({run with status := .excluded}, c)
  | .fails error => .error error
  | .page parent listing excluded =>
    match run.frontier with
    | [] => .ok ({run with status := .success}, c)
    | frame :: _ =>
      if run.budget = 0 then .ok ({run with status := .partially}, c)
      else acceptPage run c now seenAt frame parent listing excluded

/-- The retry of a turn that raises. -/
def IndexRun.retry (run : IndexRun) (error : Raised) (dreamAttempt : Option Nat) (maxAttempts now : Nat) : IndexRun :=
  let attempts := dreamAttempt.getD (run.attempts + 1)
  {run with
    attempts
    errorType := some (.raised error)
    status := if maxAttempts ≤ attempts then .error else .retry
    nextAttemptAt := if dreamAttempt.isSome then now else now + 1000000 * min 3600 (30 * 2 ^ attempts)
    -- A revision conflict invalidates the old cursor, never the source.
    frontier :=
      match run.frontier with
      | frame :: frames =>
        if error = .resourceRevisionConflict
        then {frame with cursor := none, dreamIdentity := some run.subject} :: frames else frame :: frames
      | [] => [] }

/-- `_advance_index_run`. -/
def advanceIndexRun (run : IndexRun) (c : State) (now seenAt : Nat) (answer : Answer)
    (dreamAttempt : Option Nat) (maxAttempts : Nat) :
    IndexRun × State :=
  match processIndexPage run c now seenAt answer with
  | .ok settled => settled
  | .error error => (run.retry error dreamAttempt maxAttempts now, c)

/-- What happens to a run. -/
inductive Event
  /-- `indexing_tick`, when it selects the run. -/
  | tick (now seenAt : Nat) (answer : Answer)
  /-- `discover_directory`. -/
  | discover (subject : Identity) (attempt maxAttempts now seenAt : Nat) (answer : Answer)
  /-- `discovery_subjects`, with the receipt of a subject whose attempts are exhausted. -/
  | exhaust (subject : Identity) (now : Nat)
  /-- `cancel_index_run`. -/
  | cancel (now : Nat)
deriving DecidableEq, Repr

namespace Event

def now : Event → Nat
  | .tick now _ _ | .discover _ _ _ now _ _ | .exhaust _ now | .cancel now => now

end Event

/-- The answer that a turn meets, where the event takes one. -/
def turn (run : IndexRun) : Event → Option Answer
  | .tick now _ answer => if run.status.queues && run.nextAttemptAt ≤ now then some answer else none
  | .discover subject _ _ _ _ answer => if run.status.queues && run.subject = subject then some answer else none
  | _ => none

def apply (run : IndexRun) (c : State) (event : Event) : IndexRun × State :=
  match event with
  | .tick now seenAt answer =>
    if (turn run event).isSome then advanceIndexRun run c now seenAt answer none 5 else (run, c)
  | .discover _ attempt maxAttempts now seenAt answer =>
    if (turn run event).isSome then advanceIndexRun run c now seenAt answer (some attempt) maxAttempts else (run, c)
  | .exhaust subject _ =>
    if run.status.queues && run.subject = subject
      then ({run with status := .error, errorType := some .dreamAttemptsExhausted}, c) else (run, c)
  | .cancel _ => if run.status.queues then ({run with status := .cancelled}, c) else (run, c)

end Galaris.FileShare.Indexing
