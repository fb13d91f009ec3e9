import Mathlib.Data.List.Sort
import Mathlib.Order.Basic

/-! The frontier of a run (`_frontier`, `enqueue`; `native_engine.py`).

A pass returns at most fifty of the rows that are ready or waiting, in the order of their admission, and remembers
the last one (`cursor`) and the last admission of the rotation (`cutoff`). A rotation ends where no row is left
between the two; the next one takes in what was admitted meanwhile. So a row that stays active is `due` within a
number of calls that new admissions do not raise (`due_step`), and it is not passed over twice by a row that was
admitted after it (`Pending`). -/
namespace Galaris.Process.Native.Frontier

/-- The scheduling of a run: `cutoff` is absent until the first pass. A row is named by its admission order,
and `active` holds those that are ready or waiting. -/
structure Schedule where
  sequence : Nat := 0
  cursor : Nat := 0
  cutoff : Option Nat := none
  active : List Nat := []
  deriving DecidableEq

/-- What happens to a run. A call of `_frontier` finds its claim `held`, or returns nothing. -/
inductive Event
  | enqueue
  | complete (order : Nat)
  | call (held : Bool)
  deriving DecidableEq

/-- The active rows that a pass may take. -/
def between (active : List Nat) (cursor cutoff : Nat) : List Nat :=
    active.filter fun order => cursor < order && order ≤ cutoff

/-- The query of a pass. -/
def batch (active : List Nat) (cursor cutoff : Nat) : List Nat :=
    ((between active cursor cutoff).insertionSort (· ≤ ·)).take 50

/-- `_frontier`. -/
def frontier (s : Schedule) : List Nat × Schedule :=
  let cutoff := s.cutoff.getD s.sequence
  let occurrences := batch s.active s.cursor cutoff
  if occurrences.isEmpty then
    let occurrences := batch s.active 0 s.sequence
    (occurrences, {s with cursor := occurrences.getLast?.getD 0, cutoff := some s.sequence})
  else (occurrences, {s with cursor := occurrences.getLast?.getD 0, cutoff := some cutoff})

def returned (s : Schedule) : Event → List Nat
  | .call true => (frontier s).1
  | _ => []

def step (s : Schedule) : Event → Schedule
  | .enqueue => {s with sequence := s.sequence + 1, active := s.active ++ [s.sequence + 1]}
  | .complete order => {s with active := s.active.filter (· != order)}
  | .call true => (frontier s).2
  | .call false => s

def run (s : Schedule) (events : List Event) : Schedule := events.foldl step s

/-- All that the calls of a run return. -/
def delivered (s : Schedule) : List Event → List Nat
  | [] => []
  | event :: rest => returned s event ++ delivered (step s event) rest

def isCall : Event → Bool
  | .call held => held
  | _ => false

/-- The calls that held their claim. -/
def calls (events : List Event) : Nat := events.countP isCall

/-- In every state of a run. -/
def Throughout (s : Schedule) (events : List Event) (P : Schedule → Prop) : Prop :=
    ∀ past, past <+: events → P (run s past)

theorem Throughout.start {s : Schedule} {events : List Event} {P : Schedule → Prop}
    (h : Throughout s events P) : P s := h [] List.nil_prefix

theorem Throughout.next {s : Schedule} {event : Event} {rest : List Event} {P : Schedule → Prop}
    (h : Throughout s (event :: rest) P) :
    Throughout (step s event) rest P :=
  fun past hpast => h (event :: past) (List.cons_prefix_cons.mpr ⟨rfl, hpast⟩)

/-! ### What holds of a run -/

structure Kept (s : Schedule) : Prop where
  sorted : s.active.Pairwise (· < ·)
  bounded : ∀ order ∈ s.active, 0 < order ∧ order ≤ s.sequence
  cutoff : ∀ cutoff, s.cutoff = some cutoff → cutoff ≤ s.sequence
  fresh : s.cutoff = none → s.cursor = 0

/-- The last admission of the rotation. -/
def Schedule.limit (s : Schedule) : Nat := s.cutoff.getD s.sequence

/-- The rows that are left of the rotation. -/
def Schedule.rest (s : Schedule) : List Nat := between s.active s.cursor s.limit

theorem mem_between {active : List Nat} {cursor cutoff order : Nat} :
    order ∈ between active cursor cutoff ↔ order ∈ active ∧ cursor < order ∧ order ≤ cutoff := by
  rw [between, List.mem_filter, Bool.and_eq_true, decide_eq_true_eq, decide_eq_true_eq]

theorem between_sorted {active : List Nat} (h : active.Pairwise (· < ·)) (cursor cutoff : Nat) :
    (between active cursor cutoff).Pairwise (· < ·) :=
  h.sublist List.filter_sublist

theorem batch_eq {active : List Nat} (h : active.Pairwise (· < ·)) (cursor cutoff : Nat) :
    batch active cursor cutoff = (between active cursor cutoff).take 50 := by
  have hsorted : (between active cursor cutoff).Pairwise (· ≤ ·) := (between_sorted h cursor cutoff).imp Nat.le_of_lt
  rw [batch, hsorted.insertionSort_eq]

/-- What a pass returns is the beginning of a window: what is left of the rotation, or where nothing is, all
that is active. -/
structure Passes (s : Schedule) (from' limit : Nat) : Prop where
  window : s.rest ≠ [] ∧ from' = s.cursor ∧ limit = s.limit ∨ s.rest = [] ∧ from' = 0 ∧ limit = s.sequence
  returned : (frontier s).1 = (between s.active from' limit).take 50
  next : (frontier s).2 = {s with
    cursor := ((between s.active from' limit).take 50).getLast?.getD 0, cutoff := some limit}

theorem passes {s : Schedule} (h : Kept s) : ∃ from' limit, Passes s from' limit := by
  have hempty : (batch s.active s.cursor s.limit).isEmpty = true ↔ s.rest = [] := by
    rw [batch_eq h.sorted, List.isEmpty_iff, List.take_eq_nil_iff]
    exact ⟨fun h => h.resolve_left (by decide), .inr⟩
  by_cases hrest : s.rest = []
  · have hbatch : (batch s.active s.cursor (s.cutoff.getD s.sequence)).isEmpty = true := hempty.mpr hrest
    refine ⟨0, s.sequence, .inr ⟨hrest, rfl, rfl⟩, ?_, ?_⟩ <;>
      rw [frontier, if_pos hbatch, ← batch_eq h.sorted]
  · have hbatch : ¬(batch s.active s.cursor (s.cutoff.getD s.sequence)).isEmpty = true :=
        fun hempty' => hrest (hempty.mp hempty')
    refine ⟨s.cursor, s.limit, .inl ⟨hrest, rfl, rfl⟩, ?_, ?_⟩ <;>
      rw [frontier, if_neg hbatch, ← batch_eq h.sorted] <;> rfl

theorem Kept.start : Kept {} := ⟨.nil, fun _ hmem => absurd hmem List.not_mem_nil, nofun, fun _ => rfl⟩

theorem Kept.step {s : Schedule} (h : Kept s) (event : Event) : Kept (step s event) := by
  cases event with
  | enqueue =>
    refine ⟨List.pairwise_append.mpr ⟨h.sorted, List.pairwise_singleton _ _,
      fun order horder new hnew => ?_⟩, fun order horder => ?_, fun cutoff hcutoff => ?_, h.fresh⟩
    · rw [List.mem_singleton.mp hnew]
      exact Nat.lt_succ_of_le (h.bounded order horder).2
    · obtain horder | hnew := List.mem_append.mp horder
      · exact ⟨(h.bounded order horder).1, (h.bounded order horder).2.trans (Nat.le_succ _)⟩
      · rw [List.mem_singleton.mp hnew]
        exact ⟨Nat.succ_pos _, le_refl _⟩
    · exact (h.cutoff cutoff hcutoff).trans (Nat.le_succ _)
  | complete order =>
    exact ⟨h.sorted.sublist List.filter_sublist,
      fun other hother => h.bounded other (List.mem_filter.mp hother).1, h.cutoff, h.fresh⟩
  | call held =>
    cases held with
    | false => exact h
    | true =>
      obtain ⟨from', limit, hwindow, -, hnext⟩ := passes h
      have hlimit : limit ≤ s.sequence := by
        obtain ⟨-, -, rfl⟩ | ⟨-, -, rfl⟩ := hwindow
        · rw [Schedule.limit]
          cases hcutoff : s.cutoff with
          | none => exact le_refl _
          | some cutoff => exact h.cutoff cutoff hcutoff
        · exact le_refl _
      rw [Frontier.step, hnext]
      exact ⟨h.sorted, h.bounded, fun cutoff hcutoff => Option.some.inj hcutoff ▸ hlimit, nofun⟩

theorem Kept.run {s : Schedule} (h : Kept s) (events : List Event) : Kept (run s events) := by
  induction events generalizing s with
  | nil => exact h
  | cons event rest ih => exact ih (h.step event)

/-! ### Batches of a sorted window -/

section Window
variable {window : List Nat} {n q x : Nat} (hsorted : window.Pairwise (· < ·))

include hsorted

theorem lt_of_passed (hq : q ∈ window) (hnot : q ∉ window.take n) (hx : x ∈ window.take n) : x < q := by
  rw [← List.take_append_drop n window] at hsorted hq
  exact (List.pairwise_append.mp hsorted).2.2 x hx q ((List.mem_append.mp hq).resolve_left hnot)

theorem le_of_last {last : Nat} (hlast : (window.take n).getLast? = some last) (hx : x ∈ window.take n) : x ≤ last := by
  obtain ⟨init, hinit⟩ := List.getLast?_eq_some_iff.mp hlast
  have htake : (window.take n).Pairwise (· < ·) := hsorted.sublist (List.take_sublist _ _)
  rw [hinit] at htake hx
  obtain hx | hx := List.mem_append.mp hx
  · exact ((List.pairwise_append.mp htake).2.2 x hx last (List.mem_singleton_self _)).le
  · exact (List.mem_singleton.mp hx).le

/-- What is behind the last row of a batch is what is left of the window. -/
theorem filter_last {last : Nat} (hlast : (window.take n).getLast? = some last) :
    window.filter (decide <| last < ·) = window.drop n := by
  have hmem : last ∈ window.take n := List.mem_of_getLast? hlast
  have hbefore : (window.take n).filter (decide <| last < ·) = [] :=
    List.filter_eq_nil_iff.mpr fun x hx => by simpa using le_of_last hsorted hlast hx
  have hbehind : (window.drop n).filter (decide <| last < ·) = window.drop n := by
    refine List.filter_eq_self.mpr fun x hx => decide_eq_true ?_
    rw [← List.take_append_drop n window] at hsorted
    exact (List.pairwise_append.mp hsorted).2.2 last hmem x hx
  calc window.filter (decide <| last < ·)
      = (window.take n ++ window.drop n).filter (decide <| last < ·) := by rw [List.take_append_drop]
    _ = window.drop n := by rw [List.filter_append, hbefore, hbehind, List.nil_append]

end Window

/-- The state after a pass that returned something. -/
structure Moved (s : Schedule) (window : List Nat) (limit : Nat) (last : Nat) : Prop where
  found : (window.take 50).getLast? = some last
  cursor : (step s (.call true)).cursor = last
  cutoff : (step s (.call true)).limit = limit
  active : (step s (.call true)).active = s.active
  rest : (step s (.call true)).rest = window.drop 50

theorem Passes.moved {s : Schedule} (h : Kept s) {from' limit : Nat}
    (hpasses : Passes s from' limit) (hne : between s.active from' limit ≠ []) :
    ∃ last, from' < last ∧ Moved s (between s.active from' limit) limit last := by
  have hsome : ((between s.active from' limit).take 50).getLast?.isSome := List.getLast?_isSome.mpr fun heq =>
    (List.take_eq_nil_iff.mp heq).elim (by decide) hne
  obtain ⟨last, hlast⟩ := Option.isSome_iff_exists.mp hsome
  have hmem := mem_between.mp (List.mem_of_mem_take (List.mem_of_getLast? hlast))
  have hnext : step s (.call true) = {s with cursor := last, cutoff := some limit} := by
    rw [step, hpasses.next, hlast, Option.getD_some]
  refine ⟨last, hmem.2.1, ⟨hlast, ?_, ?_, ?_, ?_⟩⟩ <;> rw [hnext]
  · rfl
  · rw [← filter_last (between_sorted h.sorted _ _) hlast, Schedule.rest, between, between, List.filter_filter]
    refine List.filter_congr fun order _ => ?_
    have hle : from' < last := hmem.2.1
    show (decide (last < order) && decide (order ≤ limit)) = _
    by_cases hlt : last < order
    · simp [hlt, hle.trans hlt]
    · simp [hlt]

/-! ### A row that stays active is due -/

/-- How many calls it takes to return a row: those that lead to it in the rotation that is under way, or the
rest of that and those of the next. -/
def due (n : Nat) (s : Schedule) (q : Nat) : Nat :=
  if s.cursor < q ∧ q ≤ s.limit then ((s.rest.filter (decide <| · ≤ q)).length + 49) / 50
    else (s.rest.length + 49) / 50 + (n + 49) / 50

section Due
variable {n q : Nat} {s : Schedule}

theorem due_inside (h : s.cursor < q ∧ q ≤ s.limit) :
    due n s q = ((s.rest.filter (decide <| · ≤ q)).length + 49) / 50 := if_pos h

theorem due_outside (h : ¬(s.cursor < q ∧ q ≤ s.limit)) :
    due n s q = (s.rest.length + 49) / 50 + (n + 49) / 50 := if_neg h

theorem mem_rest : q ∈ s.rest ↔ q ∈ s.active ∧ s.cursor < q ∧ q ≤ s.limit := mem_between

theorem due_pos (hactive : q ∈ s.active) (hn : s.active.length ≤ n) : 0 < due n s q := by
  have hlength := List.length_pos_of_mem hactive
  rw [due]
  split
  case isTrue hrange =>
    have hmem : q ∈ s.rest.filter (decide <| · ≤ q) :=
        List.mem_filter.mpr ⟨mem_rest.mpr ⟨hactive, hrange⟩, decide_eq_true (le_refl q)⟩
    have := List.length_pos_of_mem hmem
    omega
  case isFalse => omega

theorem due_le (hn : s.active.length ≤ n) : due n s q ≤ 2 * ((n + 49) / 50) := by
  have hrest : s.rest.length ≤ s.active.length := List.length_filter_le _ _
  have hfilter : (s.rest.filter (decide <| · ≤ q)).length ≤ s.rest.length := List.length_filter_le _ _
  rw [due]
  split <;> omega

theorem due_enqueue (h : Kept s) (hactive : q ∈ s.active) : due n (step s .enqueue) q ≤ due n s q := by
  cases hcutoff : s.cutoff with
  | none =>
    -- before the first pass the rotation takes in every row, and the new one is behind `q`
    have hbound := h.bounded q hactive
    have hcursor := h.fresh hcutoff
    have hrange : s.cursor < q ∧ q ≤ s.limit := by
      rw [hcursor, Schedule.limit, hcutoff]
      exact hbound
    have hrange' : (step s .enqueue).cursor < q ∧ q ≤ (step s .enqueue).limit := by
      rw [step, Schedule.limit]
      dsimp only
      rw [hcutoff, hcursor]
      exact ⟨hbound.1, hbound.2.trans (Nat.le_succ _)⟩
    rw [due_inside hrange, due_inside hrange']
    have hsame : (step s .enqueue).rest.filter (decide <| · ≤ q) = s.rest.filter (decide <| · ≤ q) := by
      rw [step, Schedule.rest, Schedule.rest, Schedule.limit, Schedule.limit, between, between]
      dsimp only
      rw [hcutoff, List.filter_filter, List.filter_filter, List.filter_append]
      have hnew : ¬s.sequence + 1 ≤ q := by omega
      have hnil : [s.sequence + 1].filter (fun order => decide (order ≤ q) && (decide
          (s.cursor < order) && decide (order ≤ Option.getD none (s.sequence + 1)))) = [] := by
        simp [hnew]
      rw [hnil, List.append_nil]
      refine List.filter_congr fun order horder => ?_
      have := (h.bounded order horder).2
      simp [this, this.trans (Nat.le_succ _)]
    rw [hsame]
  | some cutoff =>
    have hlimit : (step s .enqueue).limit = s.limit := by
      rw [step, Schedule.limit, Schedule.limit]
      dsimp only
      rw [hcutoff]
      rfl
    have hrest : (step s .enqueue).rest = s.rest := by
      rw [Schedule.rest, hlimit, step, Schedule.rest, between, between]
      dsimp only
      rw [List.filter_append]
      have hle : s.limit ≤ s.sequence := by
        rw [Schedule.limit, hcutoff]
        exact h.cutoff cutoff hcutoff
      have hbehind : ¬s.sequence + 1 ≤ s.limit := by omega
      simp [hbehind]
    rw [due, due, hlimit, hrest]
    rfl

theorem due_complete (order : Nat) : due n (step s (.complete order)) q ≤ due n s q := by
  have hrest : (step s (.complete order)).rest.Sublist s.rest := List.filter_sublist.filter _
  have hall := hrest.length_le
  have hahead := (hrest.filter (decide <| · ≤ q)).length_le
  rw [due, due]
  show (if s.cursor < q ∧ q ≤ s.limit then _ else _) ≤ _
  split <;> omega

/-- A call that does not return the row comes nearer to it. -/
theorem due_call (h : Kept s) (hactive : q ∈ s.active) (hn : s.active.length ≤ n) (hnot : q ∉ (frontier s).1) :
    due n (step s (.call true)) q + 1 ≤ due n s q := by
  obtain ⟨from', limit, hpasses⟩ := passes h
  rw [hpasses.returned] at hnot
  have hsorted := between_sorted h.sorted from' limit
  have hwindow : (between s.active from' limit).length ≤ n := (List.length_filter_le _ _).trans hn
  -- a row of the window that is not returned is behind fifty others
  have hbehind : q ∈ between s.active from' limit → q ∈ (between s.active from' limit).drop 50 ∧
      ((between s.active from' limit).filter (decide <| · ≤ q)).length =
      50 + (((between s.active from' limit).drop 50).filter (decide <| · ≤ q)).length := by
    intro hq
    have hdrop : q ∈ (between s.active from' limit).drop 50 := by
      rw [← List.take_append_drop 50 (between s.active from' limit)] at hq
      exact (List.mem_append.mp hq).resolve_left hnot
    have htake : ((between s.active from' limit).take 50).filter (decide <| · ≤ q) =
        (between s.active from' limit).take 50 :=
      List.filter_eq_self.mpr fun x hx => decide_eq_true (lt_of_passed hsorted hq hnot hx).le
    have hlength : ((between s.active from' limit).take 50).length = 50 := by
      have := List.length_pos_of_mem hdrop
      rw [List.length_drop] at this
      rw [List.length_take]
      omega
    refine ⟨hdrop, ?_⟩
    calc ((between s.active from' limit).filter (decide <| · ≤ q)).length
        = (((between s.active from' limit).take 50 ++ (between s.active from' limit).drop 50).filter
          (decide <| · ≤ q)).length := by
          rw [List.take_append_drop]
      _ = 50 + (((between s.active from' limit).drop 50).filter (decide <| · ≤ q)).length := by
          rw [List.filter_append, htake, List.length_append, hlength]
  by_cases hrange : s.cursor < q ∧ q ≤ s.limit
  case pos =>
    have hrest : q ∈ s.rest := mem_rest.mpr ⟨hactive, hrange⟩
    obtain ⟨-, rfl, rfl⟩ | ⟨hnil, -, -⟩ := hpasses.window
    case inr => exact absurd hrest (hnil ▸ List.not_mem_nil)
    obtain ⟨hdrop, hahead⟩ := hbehind hrest
    obtain ⟨last, -, hmoved⟩ := hpasses.moved h (List.ne_nil_of_mem hrest)
    have hrange' : (step s (.call true)).cursor < q ∧ q ≤ (step s (.call true)).limit :=
        (mem_rest.mp (hmoved.rest ▸ hdrop)).2
    have hahead' : (s.rest.filter (decide <| · ≤ q)).length = _ := hahead
    rw [due_inside hrange', due_inside hrange, hmoved.rest, hahead']
    omega
  case neg =>
    obtain ⟨hne, rfl, rfl⟩ | ⟨hnil, rfl, rfl⟩ := hpasses.window
    · obtain ⟨last, hlt, hmoved⟩ := hpasses.moved h hne
      have hrange' : ¬((step s (.call true)).cursor < q ∧ q ≤ (step s (.call true)).limit) := by
        rw [hmoved.cursor, hmoved.cutoff]
        exact fun ⟨hlast, hle⟩ => hrange ⟨hlt.trans hlast, hle⟩
      have hpos := List.length_pos_of_ne_nil hne
      rw [due_outside hrange', due_outside hrange, hmoved.rest, List.length_drop]
      show _ ≤ ((between s.active s.cursor s.limit).length + 49) / 50 + _
      rw [Schedule.rest] at hpos
      omega
    · have hq : q ∈ between s.active 0 s.sequence := mem_between.mpr ⟨hactive, h.bounded q hactive⟩
      obtain ⟨hdrop, hahead⟩ := hbehind hq
      obtain ⟨last, -, hmoved⟩ := hpasses.moved h (List.ne_nil_of_mem hq)
      have hrange' : (step s (.call true)).cursor < q ∧ q ≤ (step s (.call true)).limit :=
          (mem_rest.mp (hmoved.rest ▸ hdrop)).2
      have hfilter : ((between s.active 0 s.sequence).filter (decide <| · ≤ q)).length ≤
          (between s.active 0 s.sequence).length := List.length_filter_le _ _
      rw [due_inside hrange', due_outside hrange, hmoved.rest]
      omega

theorem due_step (h : Kept s) {event : Event} (hactive : q ∈ s.active) (hn : s.active.length ≤ n)
    (hnot : q ∉ returned s event) :
    due n (step s event) q + calls [event] ≤ due n s q := by
  cases event with
  | enqueue => exact due_enqueue h hactive
  | complete order => exact due_complete order
  | call held =>
    cases held with
    | false => exact le_refl _
    | true => exact due_call h hactive hn hnot

end Due

theorem due_run {n q : Nat} {s : Schedule} (h : Kept s) {events : List Event}
    (hall : Throughout s events fun s => q ∈ s.active ∧ s.active.length ≤ n)
    (hnot : q ∉ delivered s events) : due n (run s events) q + calls events ≤ due n s q := by
  induction events generalizing s with
  | nil => exact le_refl _
  | cons event rest ih =>
    rw [delivered, List.mem_append, not_or] at hnot
    have hstep := due_step h hall.start.1 hall.start.2 hnot.1
    have hrest := ih (h.step event) hall.next hnot.2
    have hcalls : calls ([event] ++ rest) = calls [event] + calls rest := List.countP_append
    rw [List.singleton_append] at hcalls
    show due n (run (step s event) rest) q + _ ≤ _
    omega

/-! ### A row that stays active is not passed over -/

/-- The next return of `r` comes after one of `q`: either `q` is left of the rotation, or `r` is not and `q`
was admitted before it. -/
structure Pending (r q : Nat) (s : Schedule) : Prop where
  earlier : q < r ∨ q ∈ s.rest
  later : r ≤ s.cursor ∨ (q ∈ s.rest ∧ q < r)

theorem Pending.mono {r q : Nat} {s t : Schedule} (h : Pending r q s)
    (hcursor : t.cursor = s.cursor) (hrest : q ∈ s.rest → q ∈ t.rest) : Pending r q t :=
  ⟨h.earlier.imp_right hrest, hcursor ▸ h.later.imp_right fun ⟨hq, hlt⟩ => ⟨hrest hq, hlt⟩⟩

section Pending
variable {r q : Nat} {s : Schedule}

/-- A pass that does not return `q` leaves it in the window. -/
theorem rest_of_passed (h : Kept s) {from' limit : Nat} (hpasses : Passes s from' limit)
    (hq : q ∈ between s.active from' limit)
    (hnot : q ∉ returned s (.call true)) : q ∈ (step s (.call true)).rest := by
  obtain ⟨last, -, hmoved⟩ := hpasses.moved h (List.ne_nil_of_mem hq)
  have hnot : q ∉ (between s.active from' limit).take 50 := hpasses.returned ▸ hnot
  rw [← List.take_append_drop 50 (between s.active from' limit)] at hq
  exact hmoved.rest ▸ (List.mem_append.mp hq).resolve_left hnot

/-- What is returned is not behind the cursor. -/
theorem le_cursor_of_returned (h : Kept s) (hr : r ∈ returned s (.call true)) : r ≤ (step s (.call true)).cursor := by
  obtain ⟨from', limit, hpasses⟩ := passes h
  have hr : r ∈ (between s.active from' limit).take 50 := hpasses.returned ▸ hr
  obtain ⟨last, -, hmoved⟩ := hpasses.moved h (List.ne_nil_of_mem (List.mem_of_mem_take hr))
  exact hmoved.cursor ▸ le_of_last (between_sorted h.sorted _ _) hmoved.found hr

/-- What is returned in the place of `q` was admitted before it. -/
theorem lt_of_returned (h : Kept s) {from' limit : Nat} (hpasses : Passes s from' limit)
    (hq : q ∈ between s.active from' limit)
    (hnot : q ∉ returned s (.call true)) (hr : r ∈ returned s (.call true)) : r < q := by
  have hnot : q ∉ (between s.active from' limit).take 50 := hpasses.returned ▸ hnot
  have hr : r ∈ (between s.active from' limit).take 50 := hpasses.returned ▸ hr
  exact lt_of_passed (between_sorted h.sorted _ _) hq hnot hr

theorem cursor_le (h : Kept s) {from' limit : Nat} (hpasses : Passes s from' limit)
    (hne : between s.active from' limit ≠ []) :
    from' ≤ (step s (.call true)).cursor := by
  obtain ⟨last, hlt, hmoved⟩ := hpasses.moved h hne
  exact hmoved.cursor ▸ hlt.le

/-- A call returns `q`, or not `r` either. -/
theorem Pending.call (hpending : Pending r q s) (h : Kept s) (hactive : q ∈ s.active)
    (hnot : q ∉ returned s (.call true)) :
    r ∉ returned s (.call true) ∧ Pending r q (step s (.call true)) := by
  obtain ⟨from', limit, hpasses⟩ := passes h
  obtain ⟨hne, rfl, rfl⟩ | ⟨hnil, rfl, rfl⟩ := hpasses.window
  · by_cases hq : q ∈ s.rest
    case pos =>
      have hrest := rest_of_passed h hpasses hq hnot
      have hcursor := cursor_le h hpasses hne
      refine ⟨fun hr => ?_, .inr hrest, ?_⟩
      · have hlt := lt_of_returned h hpasses hq hnot hr
        have hbehind := (mem_between.mp (List.mem_of_mem_take
            (hpasses.returned ▸ hr : r ∈ (between s.active s.cursor s.limit).take 50))).2.1
        obtain hle | ⟨-, hless⟩ := hpending.later <;> omega
      · obtain hle | ⟨-, hless⟩ := hpending.later
        · exact .inl (hle.trans hcursor)
        · exact .inr ⟨hrest, hless⟩
    case neg =>
      have hless := hpending.earlier.resolve_right hq
      have hle := hpending.later.resolve_right fun ⟨hq', _⟩ => hq hq'
      refine ⟨fun hr => ?_, .inl hless, .inl (hle.trans (cursor_le h hpasses hne))⟩
      have hbehind := (mem_between.mp (List.mem_of_mem_take
          (hpasses.returned ▸ hr : r ∈ (between s.active s.cursor s.limit).take 50))).2.1
      omega
  · -- a new rotation takes in every active row
    have hless : q < r := hpending.earlier.resolve_right (hnil ▸ List.not_mem_nil)
    have hq : q ∈ between s.active 0 s.sequence := mem_between.mpr ⟨hactive, h.bounded q hactive⟩
    have hrest := rest_of_passed h hpasses hq hnot
    refine ⟨fun hr => ?_, .inl hless, .inr ⟨hrest, hless⟩⟩
    have hlt := lt_of_returned h hpasses hq hnot hr
    omega

theorem Pending.step (hpending : Pending r q s) (h : Kept s) {event : Event}
    (hactive : q ∈ s.active) (hstays : q ∈ (step s event).active)
    (hnot : q ∉ returned s event) : Pending r q (step s event) := by
  cases event with
  | enqueue =>
    refine hpending.mono rfl fun hq => ?_
    obtain ⟨-, hcursor, hlimit⟩ := mem_rest.mp hq
    refine mem_rest.mpr ⟨hstays, hcursor, ?_⟩
    have hbound := (h.bounded q hactive).2
    rw [Schedule.limit] at hlimit ⊢
    rw [Frontier.step]
    cases hcutoff : s.cutoff with
    | none => exact hbound.trans (Nat.le_succ _)
    | some cutoff =>
      rw [hcutoff] at hlimit
      exact hlimit
  | complete order => exact hpending.mono rfl fun hq => mem_rest.mpr ⟨hstays, (mem_rest.mp hq).2⟩
  | call held =>
    cases held with
    | false => exact hpending
    | true => exact (hpending.call h hactive hnot).2

theorem Pending.run (hpending : Pending r q s) (h : Kept s) {events : List Event}
    (hall : Throughout s events fun s => q ∈ s.active)
    (hnot : q ∉ delivered s events) : Pending r q (run s events) := by
  induction events generalizing s with
  | nil => exact hpending
  | cons event rest ih =>
    rw [delivered, List.mem_append, not_or] at hnot
    exact ih (hpending.step h hall.start hall.next.start hnot.1) (h.step event) hall.next hnot.2

/-- After a call that returned `r` and not `q`, where `q` is of the rotation or was admitted before `r`. -/
theorem Pending.start (h : Kept s) (hactive : q ∈ s.active) (hr : r ∈ returned s (.call true))
    (hnot : q ∉ returned s (.call true))
    (hearlier : q < r ∨ q ≤ (Frontier.step s (.call true)).limit) : Pending r q (Frontier.step s (.call true)) := by
  obtain ⟨from', limit, hpasses⟩ := passes h
  have hle := le_cursor_of_returned h hr
  have hr' : r ∈ between s.active from' limit :=
      List.mem_of_mem_take (hpasses.returned ▸ hr : r ∈ (between s.active from' limit).take 50)
  obtain ⟨last, -, hmoved⟩ := hpasses.moved h (List.ne_nil_of_mem hr')
  rw [hmoved.cutoff] at hearlier
  refine ⟨?_, .inl hle⟩
  by_cases hless : q < r
  · exact .inl hless
  · have hq : q ∈ between s.active from' limit := mem_between.mpr
        ⟨hactive, by have := (mem_between.mp hr').2.1; omega, hearlier.resolve_left hless⟩
    exact .inr (rest_of_passed h hpasses hq hnot)

end Pending

theorem delivered_append (s : Schedule) (xs ys : List Event) :
    delivered s (xs ++ ys) = delivered s xs ++ delivered (run s xs) ys := by
  induction xs generalizing s with
  | nil => rfl
  | cons event rest ih =>
    rw [List.cons_append, delivered, ih, delivered, List.append_assoc]
    rfl

/-- From every state of a run: between two returns of a row each row that is active all the while is
returned, if it was admitted before that row or before the rotation of the first return began; and a row
that is active with at most `n` others or itself is returned within a number of calls, whatever is admitted
meanwhile. -/
theorem frontier_fair (past : List Event) :
    (∀ (events : List Event) (r q : Nat), r ∈ returned (run {} past) (.call true) →
      r ∈ returned (run (run {} past) (.call true :: events)) (.call true) →
        Throughout (run {} past) (.call true :: events) (fun s => q ∈ s.active) →
        (q < r ∨ q ≤ (step (run {} past) (.call true)).limit) →
        q ∈ delivered (run {} past) (.call true :: events ++ [.call true])) ∧
      ∀ (events : List Event) (n q : Nat),
        Throughout (run {} past) events (fun s => q ∈ s.active ∧ s.active.length ≤ n) →
        2 * ((n + 49) / 50) + 2 ≤ calls events → q ∈ delivered (run {} past) events := by
  have h : Kept (run {} past) := Kept.start.run past
  constructor
  · intro events r q hfirst hagain hall hearlier
    by_contra hnot
    rw [delivered_append, List.mem_append, not_or, delivered, List.mem_append, not_or] at hnot
    obtain ⟨⟨hcall, hevents⟩, hlast⟩ := hnot
    have hkept : Kept (step (run {} past) (.call true)) := h.step _
    have hpending := (Pending.start h hall.start hfirst hcall hearlier).run hkept hall.next hevents
    have hkept' : Kept (run (run {} past) (.call true :: events)) := h.run _
    have hlast : q ∉ returned (run (run {} past) (.call true :: events)) (.call true) := by
      rw [delivered, delivered, List.append_nil] at hlast
      exact hlast
    exact (hpending.call hkept' (hall _ (List.prefix_refl _)) hlast).1 hagain
  · intro events n q hall hcalls
    by_contra hnot
    have hdue := due_run h hall hnot
    have hend := hall events (List.prefix_refl _)
    have hpos := due_pos hend.1 hend.2
    have hstart := due_le (q := q) hall.start.2
    omega

/-- Fifty-one rows are admitted, and a pass returns the first fifty of them, which end; fifty more are
admitted. The last of the first rows is returned by the next two passes, and the last of all by neither. -/
theorem newcomer_passed_over : ¬∀ (past events : List Event) (r q : Nat), r ∈ returned (run {} past) (.call true) →
    r ∈ returned (run (run {} past) (.call true :: events)) (.call true) →
    Throughout (run {} past) (.call true :: events) (fun s => q ∈ s.active) →
    q ∈ delivered (run {} past) (.call true :: events ++ [.call true]) := by
  intro h
  have hpassed := h (List.replicate 51 .enqueue ++ .call true ::
      ((List.range 50).map fun i => .complete (i + 1)) ++ List.replicate 50 .enqueue) [] 51 101
    (by decide +kernel) (by decide +kernel) (fun past hpast => by
      obtain ⟨rest, hrest⟩ := hpast
      obtain rfl | ⟨rfl, -⟩ : past = [] ∨ past = [.call true] ∧ rest = [] := by
        cases past with
        | nil => exact .inl rfl
        | cons event more =>
          obtain ⟨rfl, hmore⟩ := List.cons.inj hrest
          obtain ⟨rfl, rfl⟩ := List.append_eq_nil_iff.mp hmore
          exact .inr ⟨rfl, rfl⟩
      · decide +kernel
      · decide +kernel)
  exact absurd hpassed (by decide +kernel)

end Galaris.Process.Native.Frontier
