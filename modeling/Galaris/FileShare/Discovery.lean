import Galaris.FileShare.Convergence
import Galaris.FileShare.Indexing
import Mathlib.Data.Prod.Lex
import Mathlib.Logic.Relation

/-! A discovery of a tree that does not change.

Beside a run stands what it has done: the collections that have been listed to their last page, and
whether a collection or a page was left out. The frontier holds what is found and not listed (`Crawl`);
so a run that ends without leaving anything out has listed every collection below its root. -/
namespace Galaris.FileShare.Indexing

open Percent Catalogue Transition

/-- What a provider says of the resources below a root. `rest` is what is still to be listed at a cursor,
and `rank` decreases where a page is empty. -/
structure Provider (root : Text) where
  info : Text → Descriptor
  children : Text → List Descriptor
  rest : Text → Option Text → List Descriptor
  rank : Text → Option Text → Nat
  first : ∀ uri, ∀ child ∈ children uri, child ∈ rest uri none
  parent : ∀ uri uri', ∀ child ∈ children uri, ∀ child' ∈ children uri', child.uri = child'.uri → uri = uri'
  orphan : ∀ uri, ∀ child ∈ children uri, child.uri ≠ root

namespace Provider

variable {root : Text}

/-- A collection directly below another. -/
def Below (t : Provider root) (uri other : Text) : Prop :=
    ∃ child ∈ t.children uri, child.isCollection = true ∧ child.uri = other

def Reachable (t : Provider root) : Text → Prop := Relation.ReflTransGen t.Below root

def Resource (t : Provider root) (uri : Text) : Prop := uri = root ∨ ∃ collection,
    t.Reachable collection ∧ ∃ child ∈ t.children collection, child.uri = uri

end Provider

/-- A listing of a collection has what is directly below it. -/
structure Tree (root : Text) extends Provider root where
  placed : ∀ collection, toProvider.Reachable collection → ∀ uri, toProvider.Resource uri →
    direct collection uri = true →
    uri = (info collection).uri ∨ ∃ child ∈ children collection, child.uri = uri

/-- The page that a provider gives at a cursor, of any size. -/
structure Lists {root : Text} (t : Tree root) (frame : Frame) (parent : Descriptor) (listing : Listing) : Prop where
  parent : parent = t.info frame.uri
  sound : ∀ child ∈ listing.entries, child ∈ t.children frame.uri
  complete : ∀ child ∈ t.rest frame.uri frame.cursor, child ∈ listing.entries ∨
    listing.truncated = true ∧ ∀ next, listing.next = some next → child ∈ t.rest frame.uri (some next)
  advances : listing.entries = [] → listing.truncated = true → ∀ next, listing.next = some next →
    t.rank frame.uri (some next) < t.rank frame.uri frame.cursor

/-- A run with its catalogue, and what the run has done. -/
structure World where
  run : IndexRun
  catalogue : State
  clock : Nat
  listed : List Text
  skipped : Bool

def Event.seenAt : Event → Nat
  | .tick _ seenAt _ | .discover _ _ _ _ seenAt _ => seenAt
  | .exhaust _ now | .cancel now => now

namespace World

/-- The answer of a turn that does not raise, and the run after it. -/
def settled (w : World) (event : Event) : Option (Answer × IndexRun) :=
  match turn w.run event with
  | none => none
  | some answer =>
    match processIndexPage w.run w.catalogue event.now event.seenAt answer with
    | .ok (run, _) => some (answer, run)
    | .error _ => none

/-- The collection of which the last page is listed. -/
def finished (w : World) (event : Event) : List Text :=
  match w.settled event, w.run.frontier with
  | some (.page _ listing _, _), frame :: _ => if listing.truncated || w.run.budget = 0 then [] else [frame.uri]
  | _, _ => []

/-- A page or a collection is left out. -/
def skips (w : World) (event : Event) : Bool :=
  match w.settled event, w.run.frontier with
  | some (.page _ listing _, run), _ :: _ =>
    w.run.budget = 0 || listing.truncated && listing.next.isNone ||
      listing.entries.any fun child => child.isCollection && !run.frontier.any (·.uri = child.uri)
  | _, _ => false

def apply (w : World) (event : Event) : World :=
  let (run, catalogue) := Indexing.apply w.run w.catalogue event
  ⟨run, catalogue, event.now, w.listed ++ w.finished event, w.skipped || w.skips event⟩

end World

/-- The event happens later than those before, and the provider answers for the head of the frontier. -/
def Happens {root : Text} (t : Tree root) (w : World) (event : Event) (w' : World) : Prop :=
  w' = w.apply event ∧ w.clock < event.now ∧ ∀ parent listing excluded,
    turn w.run event = some (.page parent listing excluded) →
    ∀ frame ∈ w.run.frontier.head?, Lists t frame parent listing

/-! ### Pages -/

/-- What is enqueued of a page: every collection is in the frontier, or the run is flagged. -/
structure Scanned (run : IndexRun) (entries : List Descriptor) (run' : IndexRun) : Prop where
  frontier : ∃ new, run'.frontier = run.frontier ++ new ∧ ∀ frame ∈ new, frame.cursor = none ∧
    ∃ entry ∈ entries, entry.isCollection = true ∧ entry.uri = frame.uri
  distinct : (run.frontier.map Frame.uri).Nodup → (run'.frontier.map Frame.uri).Nodup
  limited : run.limited = true → run'.limited = true
  found : ∀ entry ∈ entries, entry.isCollection = true → run'.limited = true ∨
    ∃ frame ∈ run'.frontier, frame.uri = entry.uri
  same : run'.startedAt = run.startedAt ∧ run'.maxEntries = run.maxEntries ∧ run'.scanned = run.scanned

theorem Scanned.refl (run : IndexRun) : Scanned run [] run :=
  ⟨⟨[], (List.append_nil _).symm, fun _ h => absurd h List.not_mem_nil⟩, id, id,
    fun _ h => absurd h List.not_mem_nil, rfl, rfl, rfl⟩

/-- A collection is queued, or the run is limited. -/
theorem enqueue_scanned (run : IndexRun) (depth : Nat) (entry : Descriptor) :
    Scanned run [entry] (run.enqueue depth entry) := by
  have hfound : ∀ {run' : IndexRun}, (entry.isCollection = true → run'.limited = true ∨
      ∃ frame ∈ run'.frontier, frame.uri = entry.uri) →
      ∀ other ∈ [entry], other.isCollection = true → run'.limited = true ∨ ∃ frame ∈ run'.frontier,
      frame.uri = other.uri := by
    intro run' h other hother
    exact List.mem_singleton.mp hother ▸ h
  have hsame : ∃ new, run.frontier = run.frontier ++ new ∧ ∀ frame ∈ new, frame.cursor = none ∧
      ∃ other ∈ [entry], other.isCollection = true ∧
      other.uri = frame.uri := ⟨[], (List.append_nil _).symm, fun _ h => absurd h List.not_mem_nil⟩
  unfold IndexRun.enqueue
  split
  case isFalse hfile => exact ⟨hsame, id, id, hfound fun hcollection => absurd hcollection hfile, rfl, rfl, rfl⟩
  case isTrue hcollection =>
    split
    case isTrue => exact ⟨hsame, id, fun _ => rfl, hfound fun _ => .inl rfl, rfl, rfl, rfl⟩
    case isFalse =>
      split
      case isTrue hknown =>
        obtain ⟨frame, hframe, huri⟩ := List.any_eq_true.mp hknown
        exact ⟨hsame, id, id, hfound fun _ => .inr ⟨frame, hframe, of_decide_eq_true huri⟩, rfl, rfl, rfl⟩
      case isFalse hunknown =>
        split
        case isTrue => exact ⟨hsame, id, fun _ => rfl, hfound fun _ => .inl rfl, rfl, rfl, rfl⟩
        case isFalse =>
          refine ⟨⟨_, rfl, fun frame hframe => ?_⟩, fun hdistinct => ?_, id,
            hfound fun _ => .inr ⟨_, List.mem_append_right _ List.mem_cons_self, rfl⟩,
            rfl, rfl, rfl⟩
          · rw [List.mem_singleton.mp hframe]
            exact ⟨rfl, entry, List.mem_singleton.mpr rfl, hcollection, rfl⟩
          · rw [List.map_append, List.nodup_append]
            refine ⟨hdistinct, List.nodup_singleton _, fun uri huri other hother heq => hunknown ?_⟩
            obtain ⟨frame, hframe, rfl⟩ := List.mem_map.mp huri
            exact List.any_eq_true.mpr ⟨frame, hframe, decide_eq_true (heq.trans (List.mem_singleton.mp hother))⟩

/-- What is scanned in two pieces is scanned. -/
theorem Scanned.trans {run run' run'' : IndexRun} {entries entries' : List Descriptor}
    (h : Scanned run entries run') (k : Scanned run' entries' run'') :
    Scanned run (entries ++ entries') run'' := by
  obtain ⟨new, hnew, hfrom⟩ := h.frontier
  obtain ⟨new', hnew', hfrom'⟩ := k.frontier
  refine ⟨⟨new ++ new', by rw [hnew', hnew, List.append_assoc], fun frame hframe => ?_⟩,
    k.distinct ∘ h.distinct, k.limited ∘ h.limited,
    fun entry hentry hcollection =>
      ?_, k.same.1.trans h.same.1, k.same.2.1.trans h.same.2.1, k.same.2.2.trans h.same.2.2⟩
  · obtain hframe | hframe := List.mem_append.mp hframe
    · obtain ⟨hcursor, entry, hentry, hfound⟩ := hfrom frame hframe
      exact ⟨hcursor, entry, List.mem_append_left _ hentry, hfound⟩
    · obtain ⟨hcursor, entry, hentry, hfound⟩ := hfrom' frame hframe
      exact ⟨hcursor, entry, List.mem_append_right _ hentry, hfound⟩
  · obtain hentry | hentry := List.mem_append.mp hentry
    · refine (h.found entry hentry hcollection).imp k.limited fun ⟨frame, hframe, huri⟩ => ⟨frame, ?_, huri⟩
      rw [hnew']
      exact List.mem_append_left _ hframe
    · exact k.found entry hentry hcollection

/-- All the entries of a listing are queued, or the run is limited. -/
theorem enqueues_scanned (run : IndexRun) (depth : Nat) (entries : List Descriptor) :
    Scanned run entries (entries.foldl (fun run entry => run.enqueue depth entry) run) := by
  induction entries generalizing run with
  | nil => exact Scanned.refl run
  | cons entry rest ih => exact (enqueue_scanned run depth entry).trans (ih _)

/-- What a page leaves of a run. -/
theorem scan_scanned (run : IndexRun) (depth : Nat) (entries : List Descriptor) :
    Scanned {run with scanned := run.scanned + entries.length} entries (run.scan depth entries) := by
  have h := enqueues_scanned
    {run with
      errorType := if run.limited then run.errorType else none
      scanned := run.scanned + entries.length} depth entries
  refine ⟨h.frontier, h.distinct, fun hlimited => h.limited ?_, h.found, h.same⟩
  have hflag : (if run.limited then run.errorType else none) = run.errorType := if_pos hlimited
  rw [hflag]
  exact hlimited

/-- What the reconciliation of a listing leaves: what it deletes, it covers. -/
theorem reconcile_spec {c : State} (h : Catalogue.Inv c) (gone : List Entry) (before : Nat) :
    ∃ c', gone.foldlM (fun c entry => c.observeDeletion before entry.uri) c = .ok c' ∧ Catalogue.Inv c' ∧
      (∀ row ∈ c.entries, (∀ entry ∈ gone,
        ¬ (covers entry.uri row.uri = true ∧ row.startedAt ≤ before)) → row ∈ c'.entries) ∧
      (∀ row ∈ c'.entries, row.present = true → row ∈ c.entries) ∧
      ∀ time, before ≤ time → (∀ row ∈ c.entries, row.startedAt ≤ time) → ∀ row ∈ c'.entries, row.startedAt ≤ time := by
  induction gone generalizing c with
  | nil => exact ⟨c, rfl, h, fun row hrow _ => hrow, fun row hrow _ => hrow, fun _ _ htimes => htimes⟩
  | cons entry rest ih =>
    obtain ⟨next, hnext, hinv, hdeleted⟩ := observeDeletion_spec h before entry.uri
    obtain ⟨c', hc', hinv', hkept, honly, htimes⟩ := ih hinv
    refine ⟨c', ?_, hinv', fun row hrow hnot => ?_, fun row hrow hpresent => ?_,
      fun time hle hbefore => htimes time hle fun row hrow => ?_⟩
    · rw [List.foldlM_cons]
      exact Results.bind_eq_ok.mpr ⟨next, hnext, hc'⟩
    · obtain ⟨hfirst, hrest⟩ := List.forall_mem_cons.mp hnot
      have hstays := hdeleted.rows row hrow
      rw [deleted_of_not hfirst] at hstays
      exact hkept row hstays hrest
    · obtain ⟨old, hold, rfl⟩ | rfl := hdeleted.only row (honly row hrow hpresent)
      · by_cases hcase : covers entry.uri old.uri = true ∧ old.startedAt ≤ before
        · rw [deleted_of_covers hcase.1 hcase.2] at hpresent
          cases hpresent
        · rwa [deleted_of_not hcase]
      · cases hpresent
    · obtain ⟨old, hold, rfl⟩ | rfl := hdeleted.only row hrow
      · unfold State.deleted
        split
        · exact hle
        · exact hbefore old hold
      · exact hle

/-- A page that is accepted. -/
inductive Accepted (run : IndexRun) (c : State) (now : Nat) (frame : Frame) (parent : Descriptor)
    (listing : Listing) : IndexRun → State → Prop
  | unpageable {c' : State} (seen : Seen now c (parent :: listing.entries) c')
    (inv : Catalogue.Inv c') (truncated : listing.truncated = true)
      (none : listing.next = none) :
    Accepted run c now frame parent listing
      {run.scan frame.depth listing.entries with
        frontier := run.frontier, status := .partially, errorType := some .unpageableListing} c'
  | truncated {c' : State} {next : Text} (seen : Seen now c (parent :: listing.entries) c') (inv : Catalogue.Inv c')
      (truncated : listing.truncated = true) (some : listing.next = some next) :
    Accepted run c now frame parent listing
      ((run.scan frame.depth listing.entries).settle
        ({frame with cursor := .some next, dreamIdentity := .none} ::
          (run.scan frame.depth listing.entries).frontier.tail) now) c'
  | complete {middle c' : State} (seen : Seen now c (parent :: listing.entries) middle)
    (inv : Catalogue.Inv c') (last : listing.truncated = false)
      (kept : ∀ row ∈ middle.entries,
        (∀ entry ∈ absent middle frame.uri run.startedAt, ¬ (covers entry.uri row.uri = true ∧
        row.startedAt ≤ run.startedAt)) → row ∈ c'.entries)
      (only : ∀ row ∈ c'.entries, row.present = true → row ∈ middle.entries)
      (times : ∀ time, run.startedAt ≤ time → (∀ row ∈ middle.entries, row.startedAt ≤ time) →
        ∀ row ∈ c'.entries, row.startedAt ≤ time) :
    Accepted run c now frame parent listing
      ({run.scan frame.depth listing.entries with directories := run.directories + 1}.settle
        (run.scan frame.depth listing.entries).frontier.tail now) c'

theorem observed_ok {result : Except Violation State} {c : State} (h : result = .ok c) :
    observed result = .ok c := h ▸ rfl

/-- A page is refused by its checks, or accepted. -/
theorem acceptPage_spec {run : IndexRun} {c : State} {now seenAt : Nat} {frame : Frame}
    {parent : Descriptor} {listing : Listing} {excluded : List Text}
    (hinv : Catalogue.Inv c) (htimes : ∀ row ∈ c.entries, row.startedAt ≤ now) :
    (∃ error, acceptPage run c now seenAt frame parent listing excluded = .error error ∧
      ((∃ error, checkListing frame.uri listing excluded = .error error) ∨
      listing.truncated = true ∧ listing.next.isSome = true ∧ frame.cursor = listing.next)) ∨
    ∃ run' c', acceptPage run c now seenAt frame parent listing excluded = .ok (run', c') ∧
      Accepted run c now frame parent listing run' c' := by
  unfold acceptPage
  cases hcheck : checkListing frame.uri listing excluded with
  | error error => exact .inl ⟨error, rfl, .inl ⟨error, rfl⟩⟩
  | ok u =>
    obtain ⟨middle, hmiddle, hinv', -⟩ :=
      @observeDescriptors_spec (fun _ _ => True) now seenAt (fun _ _ _ _ _ _ _ => trivial)
      (parent :: listing.entries) [] c hinv trivial
    have hseen := describe_seen hinv hmiddle htimes
    rw [observed_ok hmiddle]
    change (∃ error, (if listing.truncated = true then _ else _) = Except.error error ∧ _) ∨
      ∃ run' c', (if listing.truncated = true then _ else _) = Except.ok (run', c') ∧ _
    cases htruncated : listing.truncated with
    | true =>
      rw [if_pos rfl]
      cases hnext : listing.next with
      | none => exact .inr ⟨_, _, rfl, .unpageable hseen hinv' htruncated hnext⟩
      | some next =>
        dsimp only
        by_cases hsame : frame.cursor = some next
        · rw [if_pos hsame]
          exact .inl ⟨_, rfl, .inr ⟨rfl, rfl, hsame⟩⟩
        · rw [if_neg hsame]
          exact .inr ⟨_, _, rfl, .truncated hseen hinv' htruncated hnext⟩
    | false =>
      rw [if_neg Bool.false_ne_true]
      obtain ⟨c', hc', hinv'', hkept, honly, hlimit⟩ :=
        reconcile_spec hinv' (absent middle frame.uri run.startedAt) run.startedAt
      refine .inr ⟨_, c', ?_, .complete hseen hinv'' htruncated hkept honly hlimit⟩
      rw [observed_ok (show reconcileDirectory middle frame.uri run.startedAt = .ok c' from hc')]
      rfl

/-! ### What a turn does -/

/-- The answer makes the turn raise. -/
def refused (run : IndexRun) : Answer → Bool
  | .excluded => false
  | .fails _ => true
  | .page _ listing excluded =>
    match run.frontier with
    | [] => false
    | frame :: _ =>
      run.budget ≠ 0 && ((checkListing frame.uri listing excluded matches .error _) ||
        listing.truncated && listing.next.isSome && frame.cursor = listing.next)

/-- What one event does. -/
inductive Move {root : Text} (t : Tree root) (w : World) (now : Nat) (answer : Option Answer) : World → Prop
  | rests (met : answer = none) : Move t w now answer {w with clock := now}
  | ends {status : Status} {errorType : Option ErrorType}
    (met : answer = none ∨ answer = some .excluded) (idle : status.queues = false)
      (trusted : status ≠ .success) :
    Move t w now answer {w with clock := now, run := {w.run with status, errorType}}
  | nothing (active : w.run.status.queues = true) (frontier : w.run.frontier = []) :
    Move t w now answer {w with clock := now, run := {w.run with status := .success}}
  | exhausts (active : w.run.status.queues = true) : Move t w now answer
    {w with clock := now, run := {w.run with status := .partially}, skipped := true}
  | raises {given : Answer} {error : Raised} {dreamAttempt : Option Nat} {maxAttempts : Nat}
    (active : w.run.status.queues = true)
      (met : answer = some given) (refused : refused w.run given = true) :
    Move t w now answer {w with clock := now, run := w.run.retry error dreamAttempt maxAttempts now}
  | page {frame : Frame} {frames : List Frame} {parent : Descriptor} {listing : Listing}
    {excluded : List Text} {run : IndexRun} {c : State}
      (active : w.run.status.queues = true) (met : answer = some (.page parent listing excluded))
      (frontier : w.run.frontier = frame :: frames)
      (budget : w.run.budget ≠ 0) (lists : Lists t frame parent listing)
      (accepted : Accepted w.run w.catalogue now frame parent listing run c) :
    Move t w now answer ⟨run, c, now, w.listed ++ (if listing.truncated then [] else [frame.uri]),
      w.skipped || (listing.truncated && listing.next.isNone ||
      listing.entries.any fun child => child.isCollection && !run.frontier.any (·.uri = child.uri))⟩

/-- There are turns only of a run that is queued or running. -/
theorem turn_active {run : IndexRun} {event : Event} {answer : Answer}
    (h : turn run event = some answer) : run.status.queues = true := by
  have hqueues : ∀ {b : Bool} {other : Answer}, (if (run.status.queues && b) = true then some other
      else none) = some answer → run.status.queues = true := by
    intro b other hcase
    split at hcase
    case isTrue hactive => exact (Bool.and_eq_true_iff.mp hactive).1
    case isFalse => exact nomatch hcase
  cases event with
  | tick => exact hqueues h
  | discover => exact hqueues h
  | exhaust => exact nomatch h
  | cancel => exact nomatch h

/-- Without frontier a page ends the run. -/
theorem processIndexPage_nil {run : IndexRun} (h : run.frontier = []) (c : State) (now seenAt : Nat)
    (parent : Descriptor) (listing : Listing)
    (excluded : List Text) : processIndexPage run c now seenAt (.page parent listing excluded) =
    .ok ({run with status := .success}, c) := by
  rw [processIndexPage]
  split
  case h_1 => rfl
  case h_2 heq => exact nomatch h.symm.trans heq

/-- With a frontier a page is accepted, as long as the budget lasts. -/
theorem processIndexPage_cons {run : IndexRun} {frame : Frame} {frames : List Frame}
    (h : run.frontier = frame :: frames) (c : State)
    (now seenAt : Nat) (parent : Descriptor) (listing : Listing) (excluded : List Text) :
    processIndexPage run c now seenAt (.page parent listing excluded) =
      if run.budget = 0 then .ok ({run with status := .partially}, c)
          else acceptPage run c now seenAt frame parent listing excluded := by
  rw [processIndexPage]
  split
  case h_1 heq => exact nomatch h.symm.trans heq
  case h_2 heq =>
    obtain ⟨rfl, rfl⟩ := List.cons.inj (h.symm.trans heq)
    rfl

/-- What a turn does to a run without frontier. -/
theorem World.apply_nil {w : World} {event : Event} {answer : Answer} {run : IndexRun} {c : State}
    (h : w.run.frontier = [])
    (hsettled : w.settled event = some (answer, run)) (hrun : Indexing.apply w.run w.catalogue event = (run, c)) :
    w.apply event = ⟨run, c, event.now, w.listed, w.skipped⟩ := by
  unfold World.apply World.finished World.skips
  rw [hrun, hsettled, h]
  cases answer <;> dsimp only <;> rw [List.append_nil, Bool.or_false]

/-- What a turn does to a run with a page to accept: the frame is listed where the page is its last. -/
theorem World.apply_cons {w : World} {event : Event} {parent : Descriptor} {listing : Listing}
    {excluded : List Text} {run : IndexRun} {c : State}
    {frame : Frame} {frames : List Frame} (h : w.run.frontier = frame :: frames)
    (hsettled : w.settled event = some (.page parent listing excluded, run))
    (hrun : Indexing.apply w.run w.catalogue event = (run, c)) :
    w.apply event = ⟨run, c, event.now, w.listed ++ (if listing.truncated || w.run.budget = 0 then [] else [frame.uri]),
      w.skipped || (w.run.budget = 0 || listing.truncated && listing.next.isNone ||
        listing.entries.any fun child => child.isCollection && !run.frontier.any (·.uri = child.uri))⟩ := by
  unfold World.apply World.finished World.skips
  rw [hrun, hsettled, h]

/-- A turn that meets an answer. -/
theorem advance_move {root : Text} {t : Tree root} {w : World} {event : Event} {answer : Answer}
    (hinv : Catalogue.Inv w.catalogue)
    (htimes : ∀ row ∈ w.catalogue.entries, row.startedAt ≤ event.now) (hturn : turn w.run event = some answer)
    (hlists : ∀ parent listing excluded, answer = .page parent listing excluded →
      ∀ frame ∈ w.run.frontier.head?, Lists t frame parent listing)
    (dreamAttempt : Option Nat) (maxAttempts : Nat)
    (happly : Indexing.apply w.run w.catalogue event =
      advanceIndexRun w.run w.catalogue event.now event.seenAt answer dreamAttempt maxAttempts) :
    Move t w event.now (some answer) (w.apply event) := by
  have hactive := turn_active hturn
  -- What is beside the run follows from the result of the page.
  have hraises : ∀ {error : Raised}, processIndexPage w.run w.catalogue event.now event.seenAt
      answer = .error error → refused w.run answer = true →
      Move t w event.now (some answer) (w.apply event) := by
    intro error hpage hrefused
    have hsettled : w.settled event = none := by
      unfold World.settled
      rw [hturn]
      dsimp only
      rw [hpage]
    have hworld : w.apply event =
        {w with clock := event.now, run := w.run.retry error dreamAttempt maxAttempts event.now} := by
      unfold World.apply World.finished World.skips
      rw [happly, advanceIndexRun, hpage, hsettled]
      dsimp only
      rw [List.append_nil, Bool.or_false]
    exact hworld ▸ .raises hactive rfl hrefused
  have hsettles : ∀ {run : IndexRun} {c : State},
      processIndexPage w.run w.catalogue event.now event.seenAt answer = .ok (run, c) →
      w.settled event = some (answer, run) ∧ Indexing.apply w.run w.catalogue event = (run, c) := by
    intro run c hpage
    refine ⟨?_, by rw [happly, advanceIndexRun, hpage]⟩
    unfold World.settled
    rw [hturn]
    dsimp only
    rw [hpage]
  cases answer with
  | excluded =>
    obtain ⟨hsettled, hrun⟩ := hsettles rfl
    have hworld : w.apply event = {w with clock := event.now, run := {w.run with status := .excluded}} := by
      unfold World.apply World.finished World.skips
      rw [hrun, hsettled]
      dsimp only
      rw [List.append_nil, Bool.or_false]
    exact hworld ▸ .ends (.inr rfl) (by decide) (by decide)
  | fails error => exact hraises rfl rfl
  | page parent listing excluded =>
    cases hfrontier : w.run.frontier with
    | nil =>
      obtain ⟨hsettled, hrun⟩ := hsettles (processIndexPage_nil hfrontier ..)
      exact World.apply_nil hfrontier hsettled hrun ▸ .nothing hactive hfrontier
    | cons frame frames =>
      by_cases hbudget : w.run.budget = 0
      · obtain ⟨hsettled, hrun⟩ := hsettles ((processIndexPage_cons hfrontier ..).trans (if_pos hbudget))
        rw [World.apply_cons hfrontier hsettled hrun, hbudget, decide_eq_true rfl, Bool.or_true,
          if_pos rfl, List.append_nil, Bool.true_or, Bool.true_or,
          Bool.or_true]
        exact .exhausts hactive
      · have hpage : processIndexPage w.run w.catalogue event.now event.seenAt (.page parent listing excluded) =
            acceptPage w.run w.catalogue event.now event.seenAt frame parent listing excluded :=
          (processIndexPage_cons hfrontier ..).trans (if_neg hbudget)
        obtain ⟨error, herror, hcheck⟩ | ⟨run, c, hok, haccepted⟩ :=
          @acceptPage_spec w.run w.catalogue event.now event.seenAt frame
          parent listing excluded hinv htimes
        · refine hraises (hpage.trans herror) ?_
          unfold refused
          rw [hfrontier]
          dsimp only
          rw [Bool.and_eq_true, decide_eq_true_eq, Bool.or_eq_true]
          refine ⟨hbudget, hcheck.imp ?_ ?_⟩
          · rintro ⟨error, hchecked⟩
            rw [hchecked]
          · rintro ⟨htruncated, hnext, hsame⟩
            rw [htruncated, hnext, decide_eq_true hsame]
            rfl
        · obtain ⟨hsettled, hrun⟩ := hsettles (hpage.trans hok)
          rw [World.apply_cons hfrontier hsettled hrun, decide_eq_false hbudget, Bool.or_false, Bool.false_or]
          exact .page hactive rfl hfrontier hbudget
            (hlists parent listing excluded rfl frame (by rw [hfrontier]; rfl)) haccepted

/-- Every turn is a move. -/
theorem happens_move {root : Text} {t : Tree root} {w w' : World} {event : Event} (hinv : Catalogue.Inv w.catalogue)
    (htimes : ∀ row ∈ w.catalogue.entries, row.startedAt ≤ w.clock) (h : Happens t w event w') :
    Move t w event.now (turn w.run event) w' := by
  obtain ⟨rfl, hclock, hlists⟩ := h
  have hnow : ∀ row ∈ w.catalogue.entries, row.startedAt ≤ event.now :=
      fun row hrow => Nat.le_trans (htimes row hrow) (Nat.le_of_lt hclock)
  have hquiet : turn w.run event = none → w.apply event =
      ⟨(Indexing.apply w.run w.catalogue event).1, (Indexing.apply w.run w.catalogue event).2,
        event.now, w.listed, w.skipped⟩ := by
    intro hturn
    have hsettled : w.settled event = none := by
      unfold World.settled
      rw [hturn]
    unfold World.apply World.finished World.skips
    rw [hsettled]
    dsimp only
    rw [List.append_nil, Bool.or_false]
  have hrests : turn w.run event = none → Indexing.apply w.run w.catalogue event = (w.run, w.catalogue) →
      Move t w event.now (turn w.run event) (w.apply event) := by
    intro hturn happly
    rw [hquiet hturn, happly]
    exact .rests hturn
  cases event with
  | tick now seenAt answer =>
    cases hturn : turn w.run (.tick now seenAt answer) with
    | none =>
      refine hturn ▸ hrests hturn ?_
      rw [Indexing.apply, hturn]
      rfl
    | some met =>
      obtain rfl : answer = met := by
        rw [turn] at hturn
        split at hturn
        case isTrue => exact Option.some.inj hturn
        case isFalse => exact nomatch hturn
      refine advance_move hinv hnow hturn
        (fun parent listing excluded heq => hlists parent listing excluded (heq ▸ hturn)) none 5 ?_
      rw [Indexing.apply, hturn]
      rfl
  | discover subject attempt maxAttempts now seenAt answer =>
    cases hturn : turn w.run (.discover subject attempt maxAttempts now seenAt answer) with
    | none =>
      refine hturn ▸ hrests hturn ?_
      rw [Indexing.apply, hturn]
      rfl
    | some met =>
      obtain rfl : answer = met := by
        rw [turn] at hturn
        split at hturn
        case isTrue => exact Option.some.inj hturn
        case isFalse => exact nomatch hturn
      refine advance_move hinv hnow hturn (fun parent listing excluded heq =>
        hlists parent listing excluded (heq ▸ hturn)) (some attempt) maxAttempts ?_
      rw [Indexing.apply, hturn]
      rfl
  | exhaust subject now =>
    by_cases hcase : (w.run.status.queues && w.run.subject = subject) = true
    · rw [hquiet rfl, Indexing.apply, if_pos hcase]
      exact .ends (.inl rfl) (by decide) (by decide)
    · exact hrests rfl (by rw [Indexing.apply, if_neg hcase])
  | cancel now =>
    by_cases hcase : w.run.status.queues = true
    · rw [hquiet rfl, Indexing.apply, if_pos hcase]
      exact .ends (.inl rfl) (by decide) (by decide)
    · exact hrests rfl (by rw [Indexing.apply, if_neg hcase])

/-! ### What a run has found -/

theorem settle_status (run : IndexRun) (frontier : List Frame) (now : Nat) :
    (run.settle frontier now).status = if frontier ≠ [] then .running
    else if run.limited then .partially else .success := rfl

theorem settle_running (run : IndexRun) (frame : Frame) (frames : List Frame) (now : Nat) :
    (run.settle (frame :: frames) now).status = .running := by
  rw [settle_status, if_pos (List.cons_ne_nil frame frames)]

theorem settle_nil (run : IndexRun) (now : Nat) :
    (run.settle [] now).status = if run.limited then .partially else .success := by
  rw [settle_status, if_neg fun h => h rfl]

/-- A run that settles as a success has no frontier left and no limit met. -/
theorem settle_success {run : IndexRun} {frontier : List Frame} {now : Nat}
    (h : (run.settle frontier now).status = .success) :
    frontier = [] ∧ run.limited = false := by
  cases frontier with
  | cons frame frames => exact nomatch (settle_running run frame frames now).symm.trans h
  | nil =>
    rw [settle_nil] at h
    split at h
    case isTrue => exact nomatch h
    case isFalse hlimited => exact ⟨rfl, Bool.not_eq_true _ ▸ hlimited⟩

/-- A run that goes on has a frontier left. -/
theorem settle_queues {run : IndexRun} {frontier : List Frame} {now : Nat}
    (h : (run.settle frontier now).status.queues = true) : frontier ≠ [] := by
  rintro rfl
  rw [settle_nil] at h
  split at h <;> exact nomatch h

/-- What is present of the URI has been seen in the run. -/
def Fresh (run : IndexRun) (c : State) (uri : Text) : Prop :=
    ∀ row ∈ c.entries, row.present = true → row.uri = uri → run.startedAt ≤ row.startedAt

/-- The collections that are listed, and the one that is being listed. -/
def visited (listed : List Text) (frontier : List Frame) : List Text := listed ++ (frontier.map Frame.uri).take 1

structure Crawl {root : Text} (t : Tree root) (w : World) : Prop where
  catalogue : Catalogue.Inv w.catalogue
  times : ∀ row ∈ w.catalogue.entries, row.startedAt ≤ w.clock
  started : w.run.startedAt ≤ w.clock
  reachable : ∀ uri ∈ w.listed ++ w.run.frontier.map Frame.uri, t.Reachable uri
  distinct : (w.listed ++ w.run.frontier.map Frame.uri).Nodup
  origin : ∀ uri ∈ visited w.listed w.run.frontier, uri = root ∨ ∃ above ∈ w.listed, t.Below above uri
  tail : ∀ frame ∈ w.run.frontier.tail, frame.cursor = none ∧
    ∃ above ∈ visited w.listed w.run.frontier, t.Below above frame.uri
  fresh : w.run.status.queues = true → ∀ frame ∈ w.run.frontier.head?, ∀ child ∈ t.children frame.uri,
    child ∈ t.rest frame.uri frame.cursor ∨ Fresh w.run w.catalogue child.uri
  covered : w.skipped = false → ∀ uri, uri = root ∨ (∃ above ∈ w.listed, t.Below above uri) →
    uri ∈ w.listed ++ w.run.frontier.map Frame.uri
  covering : w.run.status.queues = true → w.skipped = false → ∀ frame ∈ w.run.frontier.head?,
    ∀ child ∈ t.children frame.uri, child.isCollection = true →
    child ∈ t.rest frame.uri frame.cursor ∨ child.uri ∈ w.run.frontier.map Frame.uri
  flagged : w.run.status.queues = true → w.skipped = true → w.run.limited = true
  active : w.run.status.queues = true → w.run.frontier ≠ []
  trusted : w.run.status = .success → w.skipped = false ∧ w.run.frontier = []

namespace Crawl

variable {root : Text} {t : Tree root} {w w' : World}

/-- A turn that takes no page keeps what is found; the cursor at the head may be reset. -/
theorem keep (h : Crawl t w) (hcatalogue : w'.catalogue = w.catalogue) (hlisted : w'.listed = w.listed)
    (huris : w'.run.frontier.map Frame.uri = w.run.frontier.map Frame.uri)
    (htail : w'.run.frontier.tail = w.run.frontier.tail)
    (hhead : ∀ frame' ∈ w'.run.frontier.head?, ∃ frame ∈ w.run.frontier.head?, frame'.uri = frame.uri ∧
      (frame'.cursor = frame.cursor ∨ frame'.cursor = none))
    (hstarted : w'.run.startedAt = w.run.startedAt) (hclock : w.clock ≤ w'.clock)
      (hskipped : w'.skipped = false → w.skipped = false)
    (hactive : w'.run.status.queues = true → w.run.status.queues = true)
      (hflagged : w'.run.status.queues = true → w'.skipped = true → w'.run.limited = true)
    (htrusted : w'.run.status = .success → w'.skipped = false ∧ w'.run.frontier = []) : Crawl t w' := by
  have hvisited : visited w'.listed w'.run.frontier = visited w.listed w.run.frontier := by
    rw [visited, visited, hlisted, huris]
  refine ⟨hcatalogue ▸ h.catalogue, fun row hrow =>
    Nat.le_trans (h.times row (hcatalogue ▸ hrow)) hclock, hstarted ▸ Nat.le_trans h.started hclock,
    ?_, ?_, ?_, ?_, fun hqueues frame' hframe' child hchild =>
    ?_, ?_, fun hqueues hskip frame' hframe' child hchild hcollection => ?_, hflagged,
    fun hqueues hempty => ?_, htrusted⟩
  · rw [hlisted, huris]
    exact h.reachable
  · rw [hlisted, huris]
    exact h.distinct
  · rw [hvisited, hlisted]
    exact h.origin
  · rw [hvisited, htail]
    exact h.tail
  · obtain ⟨frame, hframe, huri, hcursor | hcursor⟩ := hhead frame' hframe'
    · rw [huri, hcursor]
      refine (h.fresh (hactive hqueues) frame hframe child (huri ▸ hchild)).imp_right fun hfresh row
        hrow hpresent hrowuri => ?_
      rw [hstarted]
      exact hfresh row (hcatalogue ▸ hrow) hpresent hrowuri
    · rw [hcursor]
      exact .inl (t.first _ child hchild)
  · intro hskip uri huri
    rw [hlisted, huris]
    rw [hlisted] at huri
    exact h.covered (hskipped hskip) uri huri
  · obtain ⟨frame, hframe, huri, hcursor | hcursor⟩ := hhead frame' hframe'
    · rw [huri, hcursor, huris]
      exact h.covering (hactive hqueues) (hskipped hskip) frame hframe child (huri ▸ hchild) hcollection
    · rw [hcursor]
      exact .inl (t.first _ child hchild)
  · refine h.active (hactive hqueues) (List.map_eq_nil_iff.mp (huris.symm.trans ?_))
    rw [hempty]
    rfl

/-- The collection at the head is not below itself, nor is what is below it listed. -/
theorem unlisted (h : Crawl t w) {frame : Frame} {frames : List Frame}
    (hfrontier : w.run.frontier = frame :: frames) {uri : Text}
    (hbelow : t.Below frame.uri uri) : uri ∉ w.listed ∧ uri ≠ frame.uri := by
  have hnot : frame.uri ∉ w.listed := by
    have hdistinct := h.distinct
    rw [hfrontier, List.map_cons, List.nodup_append] at hdistinct
    exact fun hlisted => hdistinct.2.2 _ hlisted _ List.mem_cons_self rfl
  have horigin : ∀ {other : Text}, (other = root ∨ ∃ above ∈ w.listed, t.Below above other) →
      t.Below frame.uri other → False := by
    rintro other (rfl | ⟨above, habove, child, hchild, -, huri⟩) ⟨child', hchild', -, huri'⟩
    · exact t.orphan _ child' hchild' huri'
    · exact hnot (t.parent _ _ child hchild child' hchild' (huri.trans huri'.symm) ▸ habove)
  constructor
  · exact fun hlisted => horigin (h.origin uri (List.mem_append_left _ hlisted)) hbelow
  · rintro rfl
    refine horigin (h.origin frame.uri (List.mem_append_right _ ?_)) hbelow
    rw [hfrontier]
    exact List.mem_singleton.mpr rfl

/-- What a page adds to the frontier is below its head, and was not found before. -/
theorem scanned (h : Crawl t w) {frame : Frame} {frames : List Frame}
    (hfrontier : w.run.frontier = frame :: frames) {parent : Descriptor}
    {listing : Listing} (hlists : Lists t frame parent listing) :
    ∃ new, (w.run.scan frame.depth listing.entries).frontier = frame :: (frames ++ new) ∧
      (∀ found ∈ new, found.cursor = none ∧ t.Below frame.uri found.uri) ∧
      (w.listed ++ (frame :: (frames ++ new)).map Frame.uri).Nodup := by
  have hscan := scan_scanned w.run frame.depth listing.entries
  obtain ⟨new, hnew, hfrom⟩ := hscan.frontier
  rw [hfrontier, List.cons_append] at hnew
  have hbelow : ∀ found ∈ new, found.cursor = none ∧ t.Below frame.uri found.uri := by
    intro found hfound
    obtain ⟨hcursor, entry, hentry, hcollection, huri⟩ := hfrom found hfound
    exact ⟨hcursor, entry, hlists.sound entry hentry, hcollection, huri⟩
  refine ⟨new, hnew, hbelow, ?_⟩
  have hdistinct := h.distinct
  rw [List.nodup_append] at hdistinct ⊢
  refine ⟨hdistinct.1, hnew ▸ hscan.distinct hdistinct.2.1, fun uri huri other hother heq => ?_⟩
  obtain ⟨found, hfound, rfl⟩ := List.mem_map.mp hother
  rw [← List.cons_append] at hfound
  obtain hfound | hfound := List.mem_append.mp hfound
  · exact hdistinct.2.2 uri huri _ (hfrontier ▸ List.mem_map_of_mem hfound) heq
  · exact (h.unlisted hfrontier (hbelow found hfound).2).1 (heq ▸ huri)

/-- What has been seen in this run is still fresh after a page. -/
theorem fresh_of_stays {run : IndexRun} {c c' : State} {now : Nat} {uri : Text} (hnow : run.startedAt ≤ now)
    (hstays : ∀ row ∈ c'.entries, row.present = true → row.startedAt = now ∨ ∃ old ∈ c.entries,
      SameRow old row) (h : Fresh run c uri) :
    Fresh run c' uri := by
  intro row hrow hpresent huri
  obtain heq | ⟨old, hold, hsame⟩ := hstays row hrow hpresent
  · rwa [heq]
  · obtain ⟨-, huri', hpresent', hstarted, -⟩ := hsame
    rw [hstarted]
    exact h old hold (hpresent'.symm.trans hpresent) (huri'.symm.trans huri)

/-- What is observed of an accepted page. -/
theorem accepted_stays {run run' : IndexRun} {c c' : State} {now : Nat} {frame : Frame}
    {parent : Descriptor} {listing : Listing}
    (h : Accepted run c now frame parent listing run' c') : ∀ row ∈ c'.entries, row.present = true → row.startedAt = now ∨
      (∀ descriptor ∈ parent :: listing.entries, descriptor.uri ≠ row.uri) ∧ ∃ old ∈ c.entries, SameRow old row := by
  cases h with
  | unpageable seen => exact seen.stays
  | truncated seen => exact seen.stays
  | complete seen inv last kept only => exact fun row hrow hpresent => seen.stays row (only row hrow hpresent) hpresent

/-- An accepted page keeps the catalogue in order, with no row from later than now. -/
theorem accepted_times {run run' : IndexRun} {c c' : State} {now : Nat} {frame : Frame}
    {parent : Descriptor} {listing : Listing}
    (h : Accepted run c now frame parent listing run' c') (hnow : run.startedAt ≤ now) :
    Catalogue.Inv c' ∧ ∀ row ∈ c'.entries, row.startedAt ≤ now := by
  cases h with
  | unpageable seen inv => exact ⟨inv, seen.times⟩
  | truncated seen inv => exact ⟨inv, seen.times⟩
  | complete seen inv last kept only times => exact ⟨inv, times now hnow seen.times⟩

/-- A page of the head of the frontier that is accepted; `new` is what it adds to the frontier. -/
structure Paged {root : Text} (t : Tree root) (w : World) (now : Nat) (frame : Frame) (frames new : List Frame)
    (parent : Descriptor) (listing : Listing) (c : State) : Prop where
  active : w.run.status.queues = true
  frontier : w.run.frontier = frame :: frames
  lists : Lists t frame parent listing
  clock : w.run.startedAt ≤ now
  scan : (w.run.scan frame.depth listing.entries).frontier = frame :: (frames ++ new)
  found : ∀ found ∈ new, found.cursor = none ∧ t.Below frame.uri found.uri
  distinct : (w.listed ++ (frame :: (frames ++ new)).map Frame.uri).Nodup
  inv : Catalogue.Inv c
  times : ∀ row ∈ c.entries, row.startedAt ≤ now
  stays : ∀ row ∈ c.entries, row.present = true → row.startedAt = now ∨
    (∀ descriptor ∈ parent :: listing.entries, descriptor.uri ≠ row.uri) ∧ ∃ old ∈ w.catalogue.entries, SameRow old row

section Page
variable {now : Nat} {frame : Frame} {frames new : List Frame} {parent : Descriptor} {listing : Listing}
  {run : IndexRun} {c : State}

theorem paged (h : Crawl t w) (hclock : w.clock < now) (hactive : w.run.status.queues = true)
    (hfrontier : w.run.frontier = frame :: frames) (hlists : Lists t frame parent listing)
    (haccepted : Accepted w.run w.catalogue now frame parent listing run c) :
    ∃ new, Paged t w now frame frames new parent listing c := by
  have hnow : w.run.startedAt ≤ now := Nat.le_trans h.started (Nat.le_of_lt hclock)
  obtain ⟨hinv, htimes⟩ := accepted_times haccepted hnow
  obtain ⟨new, hscan, hnew, hdistinct⟩ := h.scanned hfrontier hlists
  exact ⟨new, hactive, hfrontier, hlists, hnow, hscan, hnew, hdistinct, hinv, htimes, accepted_stays haccepted⟩

namespace Paged

theorem head (p : Paged t w now frame frames new parent listing c) : frame ∈ w.run.frontier.head? := by
  rw [p.frontier]
  rfl

theorem visited_eq (p : Paged t w now frame frames new parent listing c) :
    visited w.listed w.run.frontier = w.listed ++ [frame.uri] := by
  rw [visited, p.frontier]
  rfl

/-- What was listed or queued is so after the page. -/
theorem old (p : Paged t w now frame frames new parent listing c) : ∀ uri ∈ w.listed ++ w.run.frontier.map Frame.uri,
    uri ∈ w.listed ++ (frame :: (frames ++ new)).map Frame.uri := by
  intro uri huri
  rw [← List.cons_append, List.map_append, ← List.append_assoc, ← p.frontier]
  exact List.mem_append_left _ huri

theorem reachable (p : Paged t w now frame frames new parent listing c) (h : Crawl t w) :
    ∀ uri ∈ w.listed ++ (frame :: (frames ++ new)).map Frame.uri, t.Reachable uri := by
  intro uri huri
  obtain huri | huri := List.mem_append.mp huri
  · exact h.reachable uri (List.mem_append_left _ huri)
  · obtain ⟨found, hfound, rfl⟩ := List.mem_map.mp huri
    rw [← List.cons_append] at hfound
    obtain hfound | hfound := List.mem_append.mp hfound
    · exact h.reachable _ (List.mem_append_right _ (p.frontier ▸ List.mem_map_of_mem hfound))
    · refine .tail (h.reachable frame.uri (List.mem_append_right _ ?_)) (p.found found hfound).2
      rw [p.frontier]
      exact List.mem_cons_self

/-- The rest of the frontier is from its beginning, below what is listed or the head. -/
theorem tail (p : Paged t w now frame frames new parent listing c) (h : Crawl t w) : ∀ found ∈ frames ++ new,
    found.cursor = none ∧ ∃ above ∈ w.listed ++ [frame.uri], t.Below above found.uri := by
  intro found hfound
  obtain hfound | hfound := List.mem_append.mp hfound
  · have hold := h.tail found (by rwa [p.frontier])
    rwa [p.visited_eq] at hold
  · exact ⟨(p.found found hfound).1, frame.uri, List.mem_append_right _ (List.mem_singleton.mpr rfl),
      (p.found found hfound).2⟩

theorem fresh (p : Paged t w now frame frames new parent listing c) {child : Descriptor}
    (hchild : child ∈ listing.entries) : Fresh w.run c child.uri := by
  intro row hrow hpresent huri
  obtain heq | ⟨hnot, -⟩ := p.stays row hrow hpresent
  · exact heq ▸ p.clock
  · exact absurd huri.symm (hnot child (List.mem_cons_of_mem _ hchild))

theorem stay (p : Paged t w now frame frames new parent listing c) {uri : Text} (h : Fresh w.run w.catalogue uri) :
    Fresh w.run c uri :=
  fresh_of_stays p.clock (fun row hrow hpresent => (p.stays row hrow hpresent).imp_right (·.2)) h

/-- A collection of the page that the frontier does not have has raised the flag. -/
theorem limited (p : Paged t w now frame frames new parent listing c) (h : Crawl t w) {frontier : List Frame}
    (hin : ∀ found ∈ frame :: (frames ++ new), found.uri ≠ frame.uri → found.uri ∈ frontier.map Frame.uri)
    (hskip : (w.skipped || listing.entries.any fun child =>
      child.isCollection && !frontier.any (·.uri = child.uri)) = true) :
    (w.run.scan frame.depth listing.entries).limited = true := by
  have hscanned := scan_scanned w.run frame.depth listing.entries
  obtain hskipped | hany := Bool.or_eq_true_iff.mp hskip
  · exact hscanned.limited (h.flagged p.active hskipped)
  · obtain ⟨child, hchild, hmissing⟩ := List.any_eq_true.mp hany
    obtain ⟨hcollection, hmissing⟩ := Bool.and_eq_true_iff.mp hmissing
    refine (hscanned.found child hchild hcollection).resolve_right ?_
    rintro ⟨found, hfound, huri⟩
    rw [p.scan] at hfound
    have hother := (h.unlisted p.frontier ⟨child, p.lists.sound child hchild, hcollection, rfl⟩).2
    obtain ⟨other, hother, hsame⟩ := List.mem_map.mp (hin found hfound (huri ▸ hother))
    rw [Bool.not_eq_true'] at hmissing
    exact absurd (decide_eq_true (hsame.trans huri)) (List.any_eq_false.mp hmissing other hother)

end Paged

/-- Where nothing is skipped, the frontier has every collection of the page. -/
theorem queued_of_not_skipped {frontier : List Frame} (h : (w.skipped || listing.entries.any fun child =>
      child.isCollection && !frontier.any (·.uri = child.uri)) = false) :
    w.skipped = false ∧ ∀ child ∈ listing.entries, child.isCollection = true →
      child.uri ∈ frontier.map Frame.uri := by
  obtain ⟨hskipped, hany⟩ := Bool.or_eq_false_iff.mp h
  refine ⟨hskipped, fun child hchild hcollection => ?_⟩
  have hin := List.any_eq_false.mp hany child hchild
  rw [hcollection, Bool.true_and, Bool.not_eq_true', Bool.not_eq_false] at hin
  obtain ⟨found, hfound, huri⟩ := List.any_eq_true.mp hin
  exact List.mem_map.mpr ⟨found, hfound, of_decide_eq_true huri⟩

/-- A truncated page without a cursor ends the crawl in part. -/
theorem page_unpageable (h : Crawl t w) (p : Paged t w now frame frames new parent listing c) :
    Crawl t ⟨{w.run.scan frame.depth listing.entries with
        frontier := w.run.frontier, status := .partially, errorType := some .unpageableListing}, c, now, w.listed, true⟩ :=
  ⟨p.inv, p.times, (scan_scanned w.run frame.depth listing.entries).same.1.symm ▸ p.clock, h.reachable, h.distinct,
    h.origin, h.tail, nofun, nofun, nofun, nofun, nofun, nofun⟩

/-- A page with a cursor stays at the head of the frontier. -/
theorem page_truncated (h : Crawl t w) (p : Paged t w now frame frames new parent listing c) {next : Text}
    (hsome : listing.next = some next) :
    Crawl t ⟨(w.run.scan frame.depth listing.entries).settle
        ({frame with cursor := some next, dreamIdentity := none} ::
          (w.run.scan frame.depth listing.entries).frontier.tail) now, c, now, w.listed,
      w.skipped || listing.entries.any fun child => child.isCollection &&
        !((w.run.scan frame.depth listing.entries).settle
          ({frame with cursor := some next, dreamIdentity := none} ::
            (w.run.scan frame.depth listing.entries).frontier.tail) now).frontier.any (·.uri = child.uri)⟩ := by
  have hscanned := scan_scanned w.run frame.depth listing.entries
  have hsettled : ((w.run.scan frame.depth listing.entries).settle
      ({frame with cursor := some next, dreamIdentity := none} ::
      (w.run.scan frame.depth listing.entries).frontier.tail) now).frontier =
        {frame with cursor := some next, dreamIdentity := none} :: (frames ++ new) := by
    rw [p.scan]
    rfl
  have huris : ({frame with cursor := some next, dreamIdentity := none} :: (frames ++ new)).map Frame.uri =
      (frame :: (frames ++ new)).map Frame.uri := rfl
  have hrunning : ((w.run.scan frame.depth listing.entries).settle
      ({frame with cursor := some next, dreamIdentity := none} ::
      (w.run.scan frame.depth listing.entries).frontier.tail) now).status = .running := settle_running _ _ _ _
  refine ⟨p.inv, p.times, hscanned.same.1.symm ▸ p.clock, ?_, ?_, ?_, ?_,
    fun _ found hfound child hchild => ?_, fun hskip uri huri => ?_,
    fun _ hskip found hfound child hchild hcollection => ?_, fun _ hskip => ?_, fun _ hempty =>
      ?_, fun hsuccess => ?_⟩
  · dsimp only
    rw [hsettled, huris]
    exact p.reachable h
  · dsimp only
    rw [hsettled, huris]
    exact p.distinct
  · dsimp only
    rw [hsettled]
    intro uri huri
    exact h.origin uri (p.visited_eq ▸ huri)
  · dsimp only
    rw [hsettled]
    exact p.tail h
  · dsimp only at hfound ⊢
    rw [hsettled] at hfound
    obtain rfl := Option.some.inj hfound
    obtain hchild' | hchild' := h.fresh p.active frame p.head child hchild
    · obtain hentry | ⟨-, hnext⟩ := p.lists.complete child hchild'
      · exact .inr fun row hrow hpresent huri => hscanned.same.1 ▸ p.fresh hentry row hrow hpresent huri
      · exact .inl (hnext next hsome)
    · exact .inr fun row hrow hpresent huri => hscanned.same.1 ▸ p.stay hchild' row hrow hpresent huri
  · dsimp only
    rw [hsettled, huris]
    exact p.old uri (h.covered (queued_of_not_skipped hskip).1 uri huri)
  · dsimp only at hfound hskip ⊢
    obtain ⟨hskipped, hpage⟩ := queued_of_not_skipped hskip
    rw [hsettled] at hfound hpage ⊢
    obtain rfl := Option.some.inj hfound
    obtain hchild' | huri := h.covering p.active hskipped frame p.head child hchild hcollection
    · exact (p.lists.complete child hchild').symm.imp (fun hnext => hnext.2 next hsome) fun hentry =>
        hpage child hentry hcollection
    · rw [huris, ← List.cons_append, ← p.frontier, List.map_append]
      exact .inr (List.mem_append_left _ huri)
  · refine p.limited h (fun found hfound _ => ?_) hskip
    rw [hsettled, huris]
    exact List.mem_map_of_mem hfound
  · dsimp only at hempty
    rw [hsettled] at hempty
    exact List.cons_ne_nil _ _ hempty
  · exact nomatch hrunning.symm.trans hsuccess

/-- The last page of a collection has it listed. -/
theorem page_complete (h : Crawl t w) (p : Paged t w now frame frames new parent listing c)
    (hlast : listing.truncated = false) (hrun : ({w.run.scan frame.depth listing.entries with
      directories := w.run.directories + 1} : IndexRun).settle
      (w.run.scan frame.depth listing.entries).frontier.tail now = run) :
    Crawl t ⟨run, c, now, w.listed ++ [frame.uri], w.skipped || listing.entries.any fun child =>
      child.isCollection && !run.frontier.any (·.uri = child.uri)⟩ := by
  have hscanned := scan_scanned w.run frame.depth listing.entries
  have hsettled : run.frontier = frames ++ new := by
    rw [← hrun]
    exact congrArg List.tail p.scan
  have hstarted : run.startedAt = w.run.startedAt := by
    rw [← hrun]
    exact hscanned.same.1
  have hflag : run.limited = (w.run.scan frame.depth listing.entries).limited := by
    rw [← hrun]
    rfl
  have huris : w.listed ++ [frame.uri] ++ (frames ++ new).map Frame.uri = w.listed ++
      (frame :: (frames ++ new)).map Frame.uri := by
    rw [List.append_assoc]
    rfl
  have hhead : frame.uri = root ∨ ∃ above ∈ w.listed, t.Below above frame.uri :=
    h.origin frame.uri (p.visited_eq ▸ List.mem_append_right _ (List.mem_singleton.mpr rfl))
  have hin : ∀ found ∈ frame :: (frames ++ new), found.uri ≠ frame.uri → found.uri ∈ run.frontier.map Frame.uri := by
    intro found hfound hne
    rw [hsettled]
    obtain rfl | hfound := List.mem_cons.mp hfound
    · exact absurd rfl hne
    · exact List.mem_map_of_mem hfound
  have hfirst : ∀ found ∈ run.frontier.head?, found.cursor = none := by
    rw [hsettled]
    exact fun found hfound => (p.tail h found (List.mem_of_mem_head? hfound)).1
  refine ⟨p.inv, p.times, hstarted.symm ▸ p.clock, ?_, ?_, ?_, ?_,
    fun _ found hfound child hchild => ?_, fun hskip uri huri => ?_,
    fun _ hskip found hfound child hchild hcollection => ?_, fun _ hskip => ?_, fun hqueues => ?_, fun hsuccess => ?_⟩
  · dsimp only
    rw [hsettled, huris]
    exact p.reachable h
  · dsimp only
    rw [hsettled, huris]
    exact p.distinct
  · dsimp only
    rw [hsettled]
    intro uri huri
    obtain huri | huri := List.mem_append.mp huri
    · obtain huri | huri := List.mem_append.mp huri
      · exact (h.origin uri (List.mem_append_left _ huri)).imp_right fun ⟨above, habove,
          hbelow⟩ => ⟨above, List.mem_append_left _ habove, hbelow⟩
      · rw [List.mem_singleton.mp huri]
        exact hhead.imp_right fun ⟨above, habove, hbelow⟩ => ⟨above, List.mem_append_left _ habove, hbelow⟩
    · obtain ⟨found, hfound, rfl⟩ := List.mem_map.mp (List.mem_of_mem_take huri)
      exact .inr (p.tail h found hfound).2
  · dsimp only
    rw [hsettled]
    intro found hfound
    obtain ⟨hcursor, above, habove, hbelow⟩ := p.tail h found (List.mem_of_mem_tail hfound)
    exact ⟨hcursor, above, List.mem_append_left _ habove, hbelow⟩
  · rw [hfirst found hfound]
    exact .inl (t.first _ child hchild)
  · obtain ⟨hskipped, hpage⟩ := queued_of_not_skipped hskip
    dsimp only at huri ⊢
    have hreached : (uri = root ∨ ∃ above ∈ w.listed, t.Below above uri) →
        uri ∈ w.listed ++ [frame.uri] ++ run.frontier.map Frame.uri := by
      rw [hsettled, huris]
      exact fun huri => p.old uri (h.covered hskipped uri huri)
    obtain rfl | ⟨above, habove, hbelow⟩ := huri
    · exact hreached (.inl rfl)
    obtain habove | habove := List.mem_append.mp habove
    · exact hreached (.inr ⟨above, habove, hbelow⟩)
    · -- All that is below the collection is on this page, or has been found before.
      obtain rfl := List.mem_singleton.mp habove
      obtain ⟨child, hchild, hcollection, rfl⟩ := hbelow
      obtain hchild' | huri := h.covering p.active hskipped frame p.head child hchild hcollection
      · obtain hentry | ⟨htruncated, -⟩ := p.lists.complete child hchild'
        · exact List.mem_append_right _ (hpage child hentry hcollection)
        · exact nomatch htruncated.symm.trans hlast
      · rw [hsettled, huris]
        exact p.old _ (List.mem_append_right _ huri)
  · rw [hfirst found hfound]
    exact .inl (t.first _ child hchild)
  · exact hflag.trans (p.limited h hin hskip)
  · dsimp only at hqueues ⊢
    rw [← hrun] at hqueues ⊢
    exact settle_queues hqueues
  · dsimp only at hsuccess ⊢
    have hends := settle_success (hrun ▸ hsuccess)
    refine ⟨?_, ?_⟩
    · rw [← Bool.not_eq_true]
      intro hskip
      have hflagged := p.limited h hin hskip
      rw [← hflag, ← hrun] at hflagged
      exact nomatch hends.2.symm.trans hflagged
    · rw [← hrun]
      exact hends.1

/-- An accepted page keeps the invariant of the crawl. -/
theorem page (h : Crawl t w) (hclock : w.clock < now) (hactive : w.run.status.queues = true)
    (hfrontier : w.run.frontier = frame :: frames)
    (hlists : Lists t frame parent listing) (haccepted : Accepted w.run w.catalogue now frame parent listing run c) :
    Crawl t ⟨run, c, now, w.listed ++ (if listing.truncated then [] else [frame.uri]),
      w.skipped || (listing.truncated && listing.next.isNone ||
      listing.entries.any fun child => child.isCollection && !run.frontier.any (·.uri = child.uri))⟩ := by
  obtain ⟨new, p⟩ := h.paged hclock hactive hfrontier hlists haccepted
  cases haccepted with
  | unpageable seen inv truncated none =>
    rw [truncated, none, Option.isNone_none, Bool.true_and, Bool.true_or, Bool.or_true, if_pos rfl, List.append_nil]
    exact h.page_unpageable p
  | truncated seen inv truncated some =>
    rw [truncated, some, Option.isNone_some, Bool.and_false, Bool.false_or, if_pos rfl, List.append_nil]
    exact h.page_truncated p some
  | complete seen inv last =>
    rw [last, Bool.false_and, Bool.false_or, if_neg Bool.false_ne_true]
    exact h.page_complete p last rfl

end Page

/-- What a turn keeps that does not raise while the run is flagged. -/
theorem move (h : Crawl t w) {now : Nat} (hclock : w.clock < now) {answer : Option Answer} (hmove : Move t w now answer w')
    (hsound : ∀ given, answer = some given → w.run.limited = true → refused w.run given = false) : Crawl t w' := by
  have hhead : ∀ frame' ∈ w.run.frontier.head?, ∃ frame ∈ w.run.frontier.head?, frame'.uri = frame.uri ∧
      (frame'.cursor = frame.cursor ∨ frame'.cursor = none) := fun frame hframe => ⟨frame, hframe, rfl, .inl rfl⟩
  cases hmove with
  | rests => exact h.keep rfl rfl rfl rfl hhead rfl (Nat.le_of_lt hclock) id id h.flagged h.trusted
  | ends met idle trusted =>
    exact h.keep rfl rfl rfl rfl hhead rfl (Nat.le_of_lt hclock) id (fun hqueues => nomatch idle.symm.trans hqueues)
      (fun hqueues => nomatch idle.symm.trans hqueues) fun hsuccess => absurd hsuccess trusted
  | nothing active frontier => exact absurd frontier (h.active active)
  | exhausts active => exact h.keep rfl rfl rfl rfl hhead rfl (Nat.le_of_lt hclock) nofun nofun nofun nofun
  | @raises given error dreamAttempt maxAttempts active met refused =>
    have hfrontier : (w.run.retry error dreamAttempt maxAttempts now).frontier = w.run.frontier ∨
        ∃ frame frames, w.run.frontier = frame :: frames ∧
        (w.run.retry error dreamAttempt maxAttempts now).frontier =
        {frame with cursor := none, dreamIdentity := some w.run.subject} :: frames := by
      unfold IndexRun.retry
      dsimp only
      split
      case h_1 frame frames heq =>
        split
        case isTrue => exact .inr ⟨frame, frames, heq, rfl⟩
        case isFalse => exact .inl heq.symm
      case h_2 heq => exact .inl heq.symm
    have hstatus : (w.run.retry error dreamAttempt maxAttempts now).status ≠ .success := by
      unfold IndexRun.retry
      dsimp only
      split <;> exact nofun
    -- The flag is lost here; nothing has been skipped so far.
    have hskipped : w.skipped = true → False := fun hskip => by
      have hkept := hsound given met (h.flagged active hskip)
      exact nomatch hkept.symm.trans refused
    refine h.keep rfl rfl ?_ ?_ ?_ rfl (Nat.le_of_lt hclock) id (fun _ => active) (fun _ hskip => (hskipped hskip).elim)
      (fun hsuccess => absurd hsuccess hstatus)
    · obtain heq | ⟨frame, frames, heq, hreset⟩ := hfrontier
      · exact congrArg _ heq
      · exact (congrArg (List.map Frame.uri) hreset).trans (heq ▸ rfl)
    · obtain heq | ⟨frame, frames, heq, hreset⟩ := hfrontier
      · exact congrArg _ heq
      · exact (congrArg List.tail hreset).trans (heq ▸ rfl)
    · intro frame' hframe'
      dsimp only at hframe'
      obtain heq | ⟨frame, frames, heq, hreset⟩ := hfrontier
      · exact hhead frame' (heq ▸ hframe')
      · rw [hreset] at hframe'
        obtain rfl := Option.some.inj hframe'
        exact ⟨frame, by rw [heq]; rfl, rfl, .inr rfl⟩
  | page active met frontier budget lists accepted => exact h.page hclock active frontier lists accepted

end Crawl

/-! ### Runs -/

section Runs

variable {root : Text} (t : Tree root)

/-- The last page of a collection deletes an entry that is directly below it, was not seen since the start
and is not in the tree, and with it one that is. -/
def Buries (w : World) (frame : Frame) (parent : Descriptor) (listing : Listing) : Prop :=
  listing.truncated = false ∧ ∃ gone ∈ absent w.catalogue frame.uri w.run.startedAt,
    (∀ descriptor ∈ parent :: listing.entries, descriptor.uri ≠ gone.uri) ∧
    ∃ row ∈ w.catalogue.entries, row.present = true ∧ t.Resource row.uri ∧ row.uri ≠ gone.uri ∧
    covers gone.uri row.uri = true ∧
      row.startedAt ≤ w.run.startedAt ∧ ∀ descriptor ∈ parent :: listing.entries, descriptor.uri ≠ row.uri

/-- The condition of a turn: it does not raise after something was left out, and its listing buries nothing. -/
def Sound (w : World) (event : Event) : Prop :=
  ∀ answer, turn w.run event = some answer → (w.run.limited = true → refused w.run answer = false) ∧
    ∀ parent listing excluded, answer = .page parent listing excluded →
    ∀ frame ∈ w.run.frontier.head?, ¬ Buries t w frame parent listing

abbrev Turns : World → Event → World → Prop := Guarded (Happens t) (Sound t)

variable {t}

/-- Every turn that meets the condition keeps the invariant of the crawl. -/
theorem Crawl.step {w w' : World} {event : Event} (h : Crawl t w) (hstep : Turns t w event w') : Crawl t w' :=
  h.move hstep.2.2.1 (happens_move h.catalogue h.times hstep.2) fun given hgiven => (hstep.1 given hgiven).1

/-- A resource of the tree is not among what a complete listing proves to be absent, unless it was on the page. -/
theorem Crawl.present {w : World} (h : Crawl t w) (hactive : w.run.status.queues = true)
    {frame : Frame} {frames : List Frame}
    (hfrontier : w.run.frontier = frame :: frames) {parent : Descriptor} {listing : Listing}
    (hlists : Lists t frame parent listing)
    (hlast : listing.truncated = false) {row : Entry} (hrow : row ∈ absent w.catalogue frame.uri w.run.startedAt)
    (hnot : ∀ descriptor ∈ parent :: listing.entries, descriptor.uri ≠ row.uri) : ¬ t.Resource row.uri := by
  intro hresource
  obtain ⟨hmem, hkept⟩ := List.mem_filter.mp hrow
  rw [Bool.and_eq_true, Bool.and_eq_true, Bool.and_eq_true, decide_eq_true_eq, decide_eq_true_eq] at hkept
  obtain ⟨⟨⟨hlive, -⟩, hbefore⟩, hdirect⟩ := hkept
  have hreachable : t.Reachable frame.uri := by
    refine h.reachable frame.uri (List.mem_append_right _ ?_)
    rw [hfrontier]
    exact List.mem_cons_self
  obtain hself | ⟨child, hchild, huri⟩ := t.placed frame.uri hreachable row.uri hresource hdirect
  · refine hnot parent List.mem_cons_self ?_
    rw [hlists.parent, hself]
  · obtain hrest | hfresh := h.fresh hactive frame (by rw [hfrontier]; rfl) child hchild
    · obtain hentry | ⟨htruncated, -⟩ := hlists.complete child hrest
      · exact hnot child (List.mem_cons_of_mem _ hentry) huri
      · exact nomatch htruncated.symm.trans hlast
    · exact absurd hbefore (Nat.not_lt.mpr (hfresh row hmem hlive huri.symm))

/-- What is present and in the tree stays present, as the entry that it is. -/
theorem Crawl.keeps {w w' : World} {event : Event} (h : Crawl t w) (hstep : Turns t w event w')
    {row : Entry} (hrow : row ∈ w.catalogue.entries)
    (hlive : row.present = true) (hresource : t.Resource row.uri) :
    ∃ entry ∈ w'.catalogue.entries, entry.present = true ∧ entry.id = row.id ∧ entry.uri = row.uri := by
  have hmove := happens_move h.catalogue h.times hstep.2
  have hstarted : w.run.startedAt < event.now := Nat.lt_of_le_of_lt h.started hstep.2.2.1
  generalize hanswer : turn w.run event = answer at hmove
  cases hmove with
  | rests => exact ⟨row, hrow, hlive, rfl, rfl⟩
  | ends => exact ⟨row, hrow, hlive, rfl, rfl⟩
  | nothing => exact ⟨row, hrow, hlive, rfl, rfl⟩
  | exhausts => exact ⟨row, hrow, hlive, rfl, rfl⟩
  | raises => exact ⟨row, hrow, hlive, rfl, rfl⟩
  | @page frame frames parent listing excluded _ _ active met frontier budget lists accepted =>
    have hframe : frame ∈ w.run.frontier.head? := by
      rw [frontier]
      rfl
    have hburies := (hstep.1 _ (hanswer.trans met)).2 parent listing excluded rfl frame hframe
    cases accepted with
    | unpageable seen => exact seen.kept row hrow hlive
    | truncated seen => exact seen.kept row hrow hlive
    | @complete middle _ seen inv last kept only =>
      obtain ⟨entry, hentry, hpresent, hid, huri⟩ := seen.kept row hrow hlive
      refine ⟨entry, kept entry hentry fun gone hgone ⟨hcovers, hle⟩ => ?_, hpresent, hid, huri⟩
      -- What the listing covers and keeps its time was there before; so was what is deleted.
      have hbefore : ∀ {other : Entry}, other ∈ middle.entries → other.present = true →
          other.startedAt ≤ w.run.startedAt →
          (∀ descriptor ∈ parent :: listing.entries, descriptor.uri ≠ other.uri) ∧
          ∃ old ∈ w.catalogue.entries, SameRow old other := by
        intro other hother hpresent hle
        refine (seen.stays other hother hpresent).resolve_left fun heq => ?_
        exact absurd hstarted (Nat.not_lt.mpr (heq ▸ hle))
      obtain ⟨hmem, hgone'⟩ := List.mem_filter.mp hgone
      rw [Bool.and_eq_true, Bool.and_eq_true, Bool.and_eq_true, decide_eq_true_eq, decide_eq_true_eq] at hgone'
      obtain ⟨⟨⟨hgonelive, hgoneseen⟩, hgonestarted⟩, hdirect⟩ := hgone'
      obtain ⟨hgonenot, old, hold, -, hgoneuri, hgonepresent, hgonetime, -, hgoneseen'⟩ :=
        hbefore hmem hgonelive (Nat.le_of_lt hgonestarted)
      have habsent : old ∈ absent w.catalogue frame.uri w.run.startedAt := by
        refine List.mem_filter.mpr ⟨hold, ?_⟩
        rw [← hgonepresent, ← hgoneseen', ← hgonetime, ← hgoneuri, hgonelive,
          decide_eq_true hgoneseen, decide_eq_true hgonestarted, hdirect]
        rfl
      have hnot : ¬ t.Resource old.uri := h.present active frontier lists last habsent (hgoneuri ▸ hgonenot)
      obtain ⟨hrownot, older, holder, -, hrowuri, hrowpresent, hrowtime, -⟩ := hbefore hentry hpresent hle
      refine hburies ⟨last, old, habsent, hgoneuri ▸ hgonenot, older, holder,
        hrowpresent.symm.trans hpresent, ?_, fun hsame => hnot ?_, ?_, hrowtime ▸ hle, ?_⟩
      · rwa [← hrowuri, huri]
      · rwa [← hsame, ← hrowuri, huri]
      · rwa [← hgoneuri, ← hrowuri]
      · rwa [← hrowuri]

/-! ### The end of a run -/

/-- What a page leaves less of: the budget, then the frontier, then what is to be listed of its head. -/
def left (t : Tree root) (w : World) : Nat ×ₗ Nat ×ₗ Nat :=
  toLex (w.run.maxEntries - w.run.scanned, toLex
    (w.run.frontier.length, w.run.frontier.head?.elim 0 fun frame => t.rank frame.uri frame.cursor))

/-- The turn takes a page. -/
def Pages (w : World) (event : Event) : Prop :=
  ∃ parent listing excluded, turn w.run event = some (.page parent listing excluded) ∧
    refused w.run (.page parent listing excluded) = false

/-- A turn with a page leaves less to be listed. -/
theorem Crawl.decreases {w w' : World} {event : Event} (h : Crawl t w) (hstep : Turns t w event w')
    (hpages : Pages w event)
    (hactive : w'.run.status.queues = true) : left t w' < left t w := by
  have hmove := happens_move h.catalogue h.times hstep.2
  obtain ⟨parent, listing, excluded, hturn, hrefused⟩ := hpages
  rw [hturn] at hmove
  cases hmove with
  | rests met => exact nomatch met
  | ends met idle => exact nomatch idle.symm.trans hactive
  | nothing active frontier => exact nomatch hactive
  | exhausts active => exact nomatch hactive
  | raises active met refused =>
    obtain rfl := Option.some.inj met
    exact nomatch hrefused.symm.trans refused
  | @page frame frames _ _ _ _ _ active met frontier budget lists accepted =>
    obtain ⟨rfl, rfl, rfl⟩ := Answer.page.inj (Option.some.inj met)
    have hscanned := scan_scanned w.run frame.depth listing.entries
    obtain ⟨new, hscan, hnew, -⟩ := h.scanned frontier lists
    have hmax : w.run.maxEntries - w.run.scanned ≠ 0 := by
      intro hzero
      apply budget
      rw [IndexRun.budget, hzero, Nat.min_zero]
    have hless : ∀ {run' : IndexRun}, run'.maxEntries = w.run.maxEntries →
        run'.scanned = w.run.scanned + listing.entries.length →
        listing.entries ≠ [] → run'.maxEntries - run'.scanned < w.run.maxEntries - w.run.scanned := by
      intro run' hmaxEntries hcount hentries
      have hlength := List.length_pos_iff.mpr hentries
      rw [hmaxEntries, hcount]
      omega
    -- An empty page finds nothing new.
    have hempty : listing.entries = [] → new = [] := by
      intro hentries
      refine List.eq_nil_iff_forall_not_mem.mpr fun found hfound => ?_
      obtain ⟨new', hnew', hfrom⟩ := hscanned.frontier
      rw [hscan, frontier, List.cons_append] at hnew'
      have hsame : new = new' := List.append_cancel_left (List.cons.inj hnew').2
      obtain ⟨-, entry, hentry, -⟩ := hfrom found (hsame ▸ hfound)
      rw [hentries] at hentry
      exact absurd hentry List.not_mem_nil
    have hsame : listing.entries = [] → ∀ {run' : IndexRun}, run'.maxEntries = w.run.maxEntries →
        run'.scanned = w.run.scanned + listing.entries.length →
        run'.maxEntries - run'.scanned = w.run.maxEntries - w.run.scanned := by
      intro hentries run' hmaxEntries hcount
      rw [hmaxEntries, hcount, hentries, List.length_nil, Nat.add_zero]
    cases accepted with
    | unpageable => exact nomatch hactive
    | @truncated _ next seen inv truncated some =>
      by_cases hentries : listing.entries = []
      · refine Prod.Lex.toLex_lt_toLex.mpr (.inr ⟨hsame hentries hscanned.same.2.1
          hscanned.same.2.2, Prod.Lex.toLex_lt_toLex.mpr (.inr ⟨?_, ?_⟩)⟩)
        · dsimp only [IndexRun.settle]
          rw [hscan, hempty hentries, List.append_nil, frontier]
          rfl
        · rw [frontier]
          exact lists.advances hentries truncated next some
      · exact Prod.Lex.toLex_lt_toLex.mpr (.inl (hless hscanned.same.2.1 hscanned.same.2.2 hentries))
    | complete seen inv last kept only times =>
      by_cases hentries : listing.entries = []
      · refine Prod.Lex.toLex_lt_toLex.mpr (.inr ⟨hsame hentries hscanned.same.2.1
          hscanned.same.2.2, Prod.Lex.toLex_lt_toLex.mpr (.inl ?_)⟩)
        dsimp only [IndexRun.settle]
        rw [hscan, hempty hentries, List.append_nil, frontier]
        exact Nat.lt_succ_self _
      · exact Prod.Lex.toLex_lt_toLex.mpr (.inl (hless hscanned.same.2.1 hscanned.same.2.2 hentries))

/-- Pages are taken in a row only as long as something is left. -/
theorem Crawl.ends {w : World} (h : Crawl t w) :
    Acc (fun next before => next.run.status.queues = true ∧ ∃ event, Turns t before event next ∧
        Pages before event) w := by
  induction hleft : left t w using WellFoundedLT.induction generalizing w with
  | ind amount ih =>
    refine Acc.intro w ?_
    rintro next ⟨hactive, event, hstep, hpages⟩
    exact ih _ (hleft ▸ h.decreases hstep hpages hactive) (h.step hstep) rfl

/-- What a run is worth. -/
structure Trusted (t : Tree root) (w : World) : Prop where
  success : w.run.status = .success → w.skipped = false ∧ ∀ collection, t.Reachable collection → collection ∈ w.listed
  once : w.listed.Nodup ∧ ∀ collection ∈ w.listed, t.Reachable collection
  -- A page leaves the run queued, or ends it with what it is.
  settles : ∀ event w', Turns t w event w' → Pages w event →
    w'.run.status.queues = true ∨ w'.run.status = .success ∧ w'.skipped = false ∨ w'.run.status = .partially
  ends : Acc (fun next before => next.run.status.queues = true ∧ ∃ event,
    Turns t before event next ∧ Pages before event) w
  keeps : ∀ event w', Turns t w event w' → ∀ row ∈ w.catalogue.entries, row.present = true → t.Resource row.uri →
    ∃ entry ∈ w'.catalogue.entries, entry.present = true ∧ entry.id = row.id ∧ entry.uri = row.uri

/-- A crawl that has ended as a success has listed the whole tree. -/
theorem Crawl.trusted_of {w : World} (h : Crawl t w) : Trusted t w := by
  refine ⟨fun hsuccess => ?_, ⟨(List.nodup_append.mp h.distinct).1,
    fun collection hlisted => h.reachable collection (List.mem_append_left _ hlisted)⟩,
    fun event w' hstep hpages => ?_, h.ends, fun event w' hstep row hrow hlive hresource =>
      h.keeps hstep hrow hlive hresource⟩
  · obtain ⟨hskipped, hfrontier⟩ := h.trusted hsuccess
    have hcovered := h.covered hskipped
    rw [hfrontier, List.map_nil, List.append_nil] at hcovered
    refine ⟨hskipped, fun collection hreachable => ?_⟩
    induction hreachable with
    | refl => exact hcovered root (.inl rfl)
    | tail _ hbelow ih => exact hcovered _ (.inr ⟨_, ih, hbelow⟩)
  · have hafter := h.step hstep
    have hmove := happens_move h.catalogue h.times hstep.2
    obtain ⟨parent, listing, excluded, hturn, hrefused⟩ := hpages
    rw [hturn] at hmove
    have hstatus : w'.run.status.queues = true ∨ w'.run.status = .success ∨ w'.run.status = .partially := by
      cases hmove with
      | rests met => exact nomatch met
      | ends met => exact met.elim nofun nofun
      | nothing => exact .inr (.inl rfl)
      | exhausts => exact .inr (.inr rfl)
      | raises active met refused =>
        obtain rfl := Option.some.inj met
        exact nomatch hrefused.symm.trans refused
      | page active met frontier budget lists accepted =>
        cases accepted with
        | unpageable => exact .inr (.inr rfl)
        | truncated => exact .inl (congrArg Status.queues (settle_running _ _ _ _))
        | complete =>
          dsimp only
          rw [settle_status]
          split
          · exact .inl rfl
          · split
            · exact .inr (.inr rfl)
            · exact .inr (.inl rfl)
    exact hstatus.imp_right (.imp_left fun hsuccess => ⟨hsuccess, (hafter.trusted hsuccess).1⟩)

/-- A run is started on what the catalogue says by then. -/
def started (run : IndexRun) (c : State) (now : Nat) : World := ⟨run, c, now, [], false⟩

/-- A run that is started is a crawl. -/
theorem crawl_started {maxEntries maxDepth now : Nat} {run : IndexRun} {c : State}
    (hstart : startIndexRun root maxEntries maxDepth now = .ok run)
    (hinv : Catalogue.Inv c) (htimes : ∀ row ∈ c.entries, row.startedAt ≤ now) : Crawl t (started run c now) := by
  obtain rfl : run = ⟨root, .queued, [⟨root, none, 0, none⟩], now, now, 0, 0, 0, maxEntries, maxDepth, none⟩ := by
    unfold startIndexRun at hstart
    split at hstart
    case isTrue => exact nomatch hstart
    case isFalse =>
      split at hstart
      case isTrue => exact nomatch hstart
      case isFalse => exact (Except.ok.inj hstart).symm
  refine ⟨hinv, htimes, Nat.le_refl _, fun uri huri => ?_, List.nodup_singleton _,
    fun uri huri => ?_, fun _ hnil => absurd hnil List.not_mem_nil,
    fun _ frame hframe child hchild => ?_, fun _ uri huri =>
      ?_, fun _ _ frame hframe child hchild _ => ?_, nofun, fun _ => List.cons_ne_nil _ _, nofun⟩
  · obtain rfl := List.mem_singleton.mp huri
    exact .refl
  · exact .inl (List.mem_singleton.mp huri)
  · obtain rfl := Option.some.inj hframe
    exact .inl (t.first _ child hchild)
  · obtain rfl | ⟨above, habove, -⟩ := huri
    · exact List.mem_singleton.mpr rfl
    · exact absurd habove List.not_mem_nil
  · obtain rfl := Option.some.inj hframe
    exact .inl (t.first _ child hchild)

/-- A discovery that reports success is complete, and every discovery keeps what exists. -/
theorem discovery_trusted {maxEntries maxDepth now : Nat} {run : IndexRun} {c : State} {events : List Event} {w : World}
    (hstart : startIndexRun root maxEntries maxDepth now = .ok run) (hinv : Catalogue.Inv c)
    (htimes : ∀ row ∈ c.entries, row.startedAt ≤ now)
    (h : Steps (Turns t) (started run c now) events w) : Trusted t w :=
  (h.invariant (P := Crawl t) (fun _ _ _ hcrawl hstep => hcrawl.step hstep)
    (crawl_started hstart hinv htimes)).trusted_of

end Runs

/-! ### A flag that is lost -/

namespace Example

def cloud : Text := "cloud://".toList

def top : Descriptor := ⟨cloud, true, "1"⟩

def listed (uri : Text) : List Descriptor := if uri = cloud then [folder] else if uri = folder.uri then [leaf] else []

/-- One folder with one file; a second page is empty. -/
def provider : Provider cloud where
  info uri := if uri = cloud then top else folder
  children := listed
  rest uri cursor := if cursor = none then listed uri else []
  rank _ _ := 0
  first _ _ h := h
  parent uri uri' child hchild child' hchild' huri := by
    have hone : ∀ {other : Text} {entry : Descriptor}, entry ∈ listed other →
        other = cloud ∧ entry = folder ∨ other = folder.uri ∧ entry = leaf := by
      intro other entry hentry
      unfold listed at hentry
      split at hentry
      case isTrue heq => exact .inl ⟨heq, List.mem_singleton.mp hentry⟩
      case isFalse =>
        split at hentry
        case isTrue heq => exact .inr ⟨heq, List.mem_singleton.mp hentry⟩
        case isFalse => exact absurd hentry List.not_mem_nil
    obtain ⟨rfl, rfl⟩ | ⟨rfl, rfl⟩ := hone hchild <;> obtain ⟨rfl, rfl⟩ | ⟨rfl, rfl⟩ := hone hchild'
    · rfl
    · exact absurd huri (by decide +kernel)
    · exact absurd huri (by decide +kernel)
    · rfl
  orphan uri child hchild := by
    unfold listed at hchild
    split at hchild
    case isTrue => exact List.mem_singleton.mp hchild ▸ by decide +kernel
    case isFalse =>
      split at hchild
      case isTrue => exact List.mem_singleton.mp hchild ▸ by decide +kernel
      case isFalse => exact absurd hchild List.not_mem_nil

/-- The collections of the example. -/
theorem reachable_cases {uri : Text} (h : provider.Reachable uri) : uri = cloud ∨ uri = folder.uri := by
  induction h with
  | refl => exact .inl rfl
  | tail _ hbelow ih =>
    obtain ⟨child, hchild, hcollection, rfl⟩ := hbelow
    obtain rfl | rfl := ih
    · exact .inr (congrArg Descriptor.uri (List.mem_singleton.mp hchild))
    · have hleaf : child = leaf := List.mem_singleton.mp hchild
      rw [hleaf] at hcollection
      exact nomatch hcollection

/-- The resources of the example. -/
theorem resource_cases {uri : Text} (h : provider.Resource uri) : uri = cloud ∨ uri = folder.uri ∨ uri = leaf.uri := by
  obtain rfl | ⟨collection, hreachable, child, hchild, rfl⟩ := h
  · exact .inl rfl
  · obtain rfl | rfl := reachable_cases hreachable
    · exact .inr (.inl (congrArg Descriptor.uri (List.mem_singleton.mp hchild)))
    · exact .inr (.inr (congrArg Descriptor.uri (List.mem_singleton.mp hchild)))

def plans : Tree cloud where
  toProvider := provider
  placed collection hreachable uri hresource hdirect := by
    obtain rfl | rfl := reachable_cases hreachable <;> obtain rfl | rfl | rfl := resource_cases hresource
    · exact .inl rfl
    · exact .inr ⟨folder, List.mem_singleton.mpr rfl, rfl⟩
    · exact absurd hdirect (by decide +kernel)
    · exact absurd hdirect (by decide +kernel)
    · exact .inl rfl
    · exact .inr ⟨leaf, List.mem_singleton.mpr rfl, rfl⟩

def flat : IndexRun := ⟨cloud, .queued, [⟨cloud, none, 0, none⟩], 5, 5, 0, 0, 0, 100, 0, none⟩

def first : Event := .tick 6 6 (.page top ⟨[folder], true, some "2".toList⟩ [])

def fails : Event := .tick 7 7 (.fails (.other "TimeoutError"))

def second : Event := .tick 100000000 100000000 (.page top ⟨[], false, none⟩ [])

theorem first_lists : Lists plans ⟨cloud, none, 0, none⟩ top ⟨[folder], true, some "2".toList⟩ :=
  ⟨rfl, fun _ h => h, fun _ h => .inl h, fun h => nomatch h⟩

theorem second_lists : Lists plans ⟨cloud, some "2".toList, 0, none⟩ top ⟨[], false, none⟩ :=
  ⟨rfl, fun _ h => absurd h List.not_mem_nil, fun _ h => absurd h List.not_mem_nil, fun _ h => nomatch h⟩

/-- A page of the head of the frontier may come. -/
theorem happens_page {root : Text} {t : Tree root} {w : World} {event : Event} {parent : Descriptor}
    {listing : Listing} {excluded : List Text}
    {frame : Frame} (hturn : turn w.run event = some (.page parent listing excluded))
    (hhead : w.run.frontier.head? = some frame)
    (hclock : w.clock < event.now) (hlists : Lists t frame parent listing) : Happens t w event (w.apply event) := by
  refine ⟨rfl, hclock, fun parent' listing' excluded' hturn' frame' hframe' => ?_⟩
  obtain ⟨rfl, rfl, -⟩ := Answer.page.inj (Option.some.inj (hturn.symm.trans hturn'))
  obtain rfl := Option.some.inj (hhead.symm.trans hframe')
  exact hlists

/-- An error may come at any time. -/
theorem happens_fails {root : Text} {t : Tree root} {w : World} {event : Event} {error : Raised}
    (hturn : turn w.run event = some (.fails error))
    (hclock : w.clock < event.now) : Happens t w event (w.apply event) :=
  ⟨rfl, hclock, fun _ _ _ hturn' => nomatch hturn.symm.trans hturn'⟩

def found : World := (started flat empty 5).apply first

def failed : World := found.apply fails

/-- The folder is below the depth limit, which the error in between makes forgotten. -/
theorem lost_flag : Steps (Happens plans) (started flat empty 5) [first, fails, second] (failed.apply second) ∧
    (failed.apply second).run.status = .success ∧ (failed.apply second).skipped = true ∧
    folder.uri ∉ (failed.apply second).listed := by
  refine ⟨.cons (happens_page rfl rfl (by decide) first_lists) (.cons (happens_fails rfl (by decide))
    (.cons (happens_page rfl rfl (by decide) second_lists) (.nil _))), ?_⟩
  decide +kernel

/-- The former file has the name of the folder; what is known of the folder is from before the run. -/
def former : State :=
  ⟨[⟨0, "cloud://plans".toList, .uri "cloud://plans".toList, 1, ⟨"cloud://plans".toList, false, "1"⟩, "", true, 1, 1⟩,
    ⟨1, leaf.uri, .uri leaf.uri, 1, leaf, "draft", true, 2, 2⟩], 2⟩

def deep : IndexRun := ⟨cloud, .queued, [⟨cloud, none, 0, none⟩], 5, 5, 0, 0, 0, 100, 64, none⟩

def whole : Event := .tick 6 6 (.page top ⟨[folder], false, none⟩ [])

theorem whole_lists : Lists plans ⟨cloud, none, 0, none⟩ top ⟨[folder], false, none⟩ :=
  ⟨rfl, fun _ h => h, fun _ h => .inl h, fun h => nomatch h⟩

/-- The listing of the root proves the former file to be absent, and what is below its name with it. -/
theorem buried : Steps (Happens plans) (started deep former 5) [whole] ((started deep former 5).apply whole) ∧
    (∃ row ∈ former.entries, row.present = true ∧ row.uri = leaf.uri) ∧
      ∀ row ∈ ((started deep former 5).apply whole).catalogue.entries, row.uri = leaf.uri → row.present = false := by
  refine ⟨.cons (happens_page rfl rfl (by decide) whole_lists) (.nil _), ?_⟩
  decide +kernel

def old : Text := "cloud://plans/b.txt".toList

/-- Both files of the folder were there before the run. -/
def older : State :=
  ⟨[⟨0, leaf.uri, .uri leaf.uri, 1, leaf, "draft", true, 2, 2⟩,
    ⟨1, old, .uri old, 1, ⟨old, false, "1"⟩, "", true, 2, 2⟩], 2⟩

def inside : Event := .tick 7 7 (.page folder ⟨[leaf], false, none⟩ [])

theorem older_inv : Catalogue.Inv older := ⟨by decide, by decide, by decide +kernel, by decide +kernel⟩

theorem inside_lists : Lists plans ⟨folder.uri, none, 1, none⟩ folder ⟨[leaf], false, none⟩ :=
  ⟨rfl, fun _ h => h, fun _ h => .inl h, fun h => nomatch h⟩

/-- A page buries nothing where what it proves to be absent is above no other row. -/
theorem sound_page {root : Text} {t : Tree root} {w : World} {event : Event} {parent : Descriptor}
    {listing : Listing} {excluded : List Text} (hturn : turn w.run event = some (.page parent listing excluded))
    (hlimited : w.run.limited = false) (hapart : ∀ frame ∈ w.run.frontier.head?,
      ∀ gone ∈ absent w.catalogue frame.uri w.run.startedAt, ∀ row ∈ w.catalogue.entries,
        row.uri ≠ gone.uri → covers gone.uri row.uri = false) : Sound t w event := by
  intro answer hanswer
  obtain rfl := Option.some.inj (hturn.symm.trans hanswer)
  refine ⟨fun h => (nomatch hlimited.symm.trans h), fun parent' listing' excluded' _ frame hframe hburies => ?_⟩
  obtain ⟨-, gone, hgone, -, row, hrow, -, -, hne, hcovers, -⟩ := hburies
  exact nomatch (hapart frame hframe gone hgone row hrow hne).symm.trans hcovers

end Example

open Example in
/-- An error after a skipped folder makes the discovery report success; and a listing deletes what is in the tree. -/
theorem discovery_misses :
    (∃ run events w, startIndexRun cloud 100 0 5 = .ok run ∧
      Steps (Happens plans) (started run empty 5) events w ∧ w.run.status = .success ∧
      plans.Reachable folder.uri ∧ folder.uri ∉ w.listed) ∧
    ∃ run events w, startIndexRun cloud 100 64 5 = .ok run ∧
      Steps (Happens plans) (started run former 5) events w ∧ plans.Resource leaf.uri ∧
      (∃ row ∈ former.entries, row.present = true ∧ row.uri = leaf.uri) ∧
      ∀ row ∈ w.catalogue.entries, row.uri = leaf.uri → row.present = false := by
  have hfolder : plans.Reachable folder.uri := .tail .refl ⟨folder, List.mem_singleton.mpr rfl, rfl, rfl⟩
  refine ⟨⟨flat, _, _, rfl, lost_flag.1, lost_flag.2.1, hfolder, lost_flag.2.2.2⟩, deep, _, _, rfl,
    buried.1, ?_, buried.2⟩
  exact .inr ⟨folder.uri, hfolder, leaf, List.mem_singleton.mpr rfl, rfl⟩

open Example in
/-- The second page, of the folder, keeps the file that is there with its notes and deletes the other. -/
theorem discovery_trusted_whole :
    ∃ run w, startIndexRun cloud 100 64 5 = .ok run ∧ Trusted plans w ∧ w.run.status = .success ∧
      w.listed = [cloud, folder.uri] ∧
      w.catalogue.entries.map (fun row => (row.uri, row.notes, row.present)) =
        [(leaf.uri, "draft", true), (old, "", false), (cloud, "", true), (folder.uri, "", true)] := by
  have hstart : startIndexRun cloud 100 64 5 = .ok deep := rfl
  refine ⟨deep, ((started deep older 5).apply whole).apply inside, hstart,
    discovery_trusted hstart older_inv (by decide)
      (.cons ⟨sound_page rfl rfl (by decide +kernel), happens_page rfl rfl (by decide) whole_lists⟩
        (.cons ⟨sound_page rfl rfl (by decide +kernel), happens_page rfl rfl (by decide) inside_lists⟩ (.nil _))), ?_⟩
  decide +kernel

end Galaris.FileShare.Indexing
