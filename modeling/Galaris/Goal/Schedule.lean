import Galaris.Base.Zones
import Mathlib.Data.List.Basic
import Mathlib.Order.Lattice
import Mathlib.Data.Int.LeastGreatest
import Mathlib.Data.Int.Order.Basic

/-! The weekly windows of Goals (`goal/settings_service.py`).

A window opens and closes at wall times. `_schedule_state` looks for an occurrence that began on the local date
or the day before, and else for the next beginning of an occurrence, on that date or one of the seven days
after it. Clocks that are set may leave nothing of an occurrence, or carry it off its date: what of this makes the
answer wrong says `schedule_agrees_iff`. -/
namespace Galaris.Goal.Schedule

open Zones

/-- `GoalScheduleWindow`; times are written as `HH:MM`. -/
structure Window where
  weekdays : List Nat
  startTime : String
  endTime : String
deriving Repr

section Config
variable (decimal : Char → Nat) (z : Zone)

/-- `_clock`, in minutes; the digits of a number are read with `decimal`. -/
def clock (value : String) : Nat :=
  match value.toList with
  | [h, h', _, m, m'] => (10 * decimal h + decimal h') * 60 + (10 * decimal m + decimal m')
  | _ => 0

/-- `date.weekday`; the first day was a Thursday. -/
def weekday (d : Int) : Nat := ((d + 3) % 7).toNat

/-- `datetime.combine`, read in the zone. -/
def combine (d : Int) (value : String) : Int := z.instant false (d * day + clock decimal value * minute)

/-- `_window_interval`. -/
def windowInterval (d : Int) (window : Window) : Int × Int :=
  let endDate := d + if window.endTime ≤ window.startTime then 1 else 0
  (combine decimal z d window.startTime, combine decimal z endDate window.endTime)

/-- An occurrence of the window begins on the date. -/
def occurs (d : Int) (window : Window) : Bool := weekday d ∈ window.weekdays

/-- The occurrence that begins on the date contains the instant. -/
def covers (t d : Int) (window : Window) : Bool :=
  occurs d window && (windowInterval decimal z d window).1 ≤ t && t < (windowInterval decimal z d window).2

/-- The beginnings after an instant, on its date and the seven days after it. -/
def candidates (schedule : List Window) (now : Int) : List Int :=
  (List.range 8).flatMap fun (offset : Nat) => schedule.filterMap fun window =>
    let d := z.date now + offset
    if occurs d window then
      let start := (windowInterval decimal z d window).1
      if now < start then some start else none
    else none

/-- `_schedule_state`. -/
def scheduleState (schedule : List Window) (now : Int) : Bool × Option Int :=
  if schedule.any fun window => covers decimal z now (z.date now - 1) window ||
    covers decimal z now (z.date now) window then (true, none)
  else (false, (candidates decimal z schedule now).min?)

/-! ### Openings -/

variable (schedule : List Window)

/-- Some occurrence contains the instant. -/
def Contains (t : Int) : Prop := ∃ window ∈ schedule, ∃ d, covers decimal z t d window = true

/-- The occurrence that begins on the date is open at the instant, whose local date is that or the day after. -/
def Open (t d : Int) (window : Window) : Prop := covers decimal z t d window = true ∧ (z.date t = d ∨ z.date t = d + 1)

/-- The state is whether an occurrence contains the instant; otherwise it tells the first instant after it
at which there is one. -/
def Agrees (now : Int) : Prop :=
  (scheduleState decimal z schedule now = (true, none) ↔ Contains decimal z schedule now) ∧
    (¬Contains decimal z schedule now → ∃ t, scheduleState decimal z schedule now = (false, some t) ∧ now < t ∧
      (scheduleState decimal z schedule t).1 = true ∧ ∀ t', now < t' → t' < t →
      (scheduleState decimal z schedule t').1 = false)

/-- What a clock shows between the two ends of an occurrence. -/
def length (window : Window) : Int :=
  (if window.endTime ≤ window.startTime then day
    else 0) + clock decimal window.endTime * minute - clock decimal window.startTime * minute

/-- How far the clocks are set forward between the two ends of an occurrence. -/
def setForward (d : Int) (window : Window) : Int :=
  let endDate := d + if window.endTime ≤ window.startTime then 1 else 0
  z.wallOffset false (endDate * day + clock decimal window.endTime * minute) -
    z.wallOffset false (d * day + clock decimal window.startTime * minute)

/-- Clocks set forward leave nothing of the occurrence, or clocks carried its beginning off its date and the
day after. -/
def Lost (d : Int) (window : Window) : Prop :=
  let start := (windowInterval decimal z d window).1
  length decimal window ≤ setForward decimal z d window ∨ ¬(z.date start = d ∨ z.date start = d + 1)

/-- An occurrence of a date that is searched from the instant: its own, or one of the seven days after it. -/
def Searched (now d : Int) (window : Window) : Prop :=
  window ∈ schedule ∧ z.date now ≤ d ∧ d ≤ z.date now + 7 ∧ occurs d window = true

/-- No clock change disturbs what is found from the instant.
* Clocks set while they last have not carried it off the dates of all the occurrences that contain it.

If there are none:
* an occurrence that is searched begins after it;
* one that is lost does not begin before another has opened;
* one of another date does not open before one that is searched has begun. -/
structure Undisturbed (now : Int) : Prop where
  unstrayed : ∀ window ∈ schedule, ∀ d, covers decimal z now d window = true →
    ∃ window' ∈ schedule, ∃ d', Open decimal z now d' window'
  begins : ¬Contains decimal z schedule now →
    ∃ window d, Searched z schedule now d window ∧ now < (windowInterval decimal z d window).1
  unlost : ¬Contains decimal z schedule now → ∀ window d, Searched z schedule now d window →
    now < (windowInterval decimal z d window).1 → Lost decimal z d window →
    ∃ window' ∈ schedule, ∃ d' t, now < t ∧ t ≤ (windowInterval decimal z d window).1 ∧ Open decimal z t d' window'
  dated : ¬Contains decimal z schedule now → ∀ window ∈ schedule, ∀ d, d < z.date now ∨ z.date now + 7 < d →
    ∀ t, now < t → Open decimal z t d window →
    ∃ window' d', Searched z schedule now d' window' ∧ now < (windowInterval decimal z d' window').1 ∧
      (windowInterval decimal z d' window').1 ≤ t

/-- A window as it is accepted, where the order of its times is that of their texts. -/
structure Accepted (window : Window) : Prop where
  weekday : ∃ w ∈ window.weekdays, w < 7
  start : clock decimal window.startTime < 24 * 60
  stop : clock decimal window.endTime < 24 * 60
  ordered : window.startTime < window.endTime → clock decimal window.startTime < clock decimal window.endTime

/-- No clock is set in the twelve days before and after the instant; offsets are of less than a day. -/
structure Calm (now : Int) : Prop where
  bounded : ∀ t, -day < z.offsetAt t ∧ z.offsetAt t < day ∧ -day < z.wallOffset false t ∧ z.wallOffset false t < day
  offset : ∀ t, now - 12 * day ≤ t → t ≤ now + 12 * day → z.offsetAt t = z.offsetAt now
  wallOffset : ∀ w, z.wall now - 12 * day ≤ w → w ≤ z.wall now + 12 * day → z.wallOffset false w = z.offsetAt now

variable {decimal z schedule}

theorem Open.contains {t d : Int} {window : Window} (hwindow : window ∈ schedule) (h : Open decimal z t d window) :
    Contains decimal z schedule t := ⟨window, hwindow, d, h.1⟩

theorem scheduleState_open {t d : Int} {window : Window} (hwindow : window ∈ schedule) (h : Open decimal z t d window) :
    scheduleState decimal z schedule t = (true, none) := by
  obtain ⟨hcovers, hdate⟩ := h
  refine if_pos (List.any_eq_true.mpr ⟨window, hwindow, Bool.or_eq_true_iff.mpr ?_⟩)
  obtain hsame | hnext := hdate
  · rw [hsame]
    exact .inr hcovers
  · rw [hnext, Int.add_sub_cancel]
    exact .inl hcovers

theorem scheduleState_closed {t : Int} (h : ¬∃ window ∈ schedule, ∃ d, Open decimal z t d window) :
    scheduleState decimal z schedule t = (false, (candidates decimal z schedule t).min?) := by
  refine if_neg fun hany => h ?_
  obtain ⟨window, hwindow, hcovers⟩ := List.any_eq_true.mp hany
  obtain hcovers | hcovers := Bool.or_eq_true_iff.mp hcovers
  · exact ⟨window, hwindow, _, hcovers, .inr (Int.sub_add_cancel _ _).symm⟩
  · exact ⟨window, hwindow, _, hcovers, .inl rfl⟩

theorem active_iff {t : Int} :
    (scheduleState decimal z schedule t).1 = true ↔ ∃ window ∈ schedule, ∃ d, Open decimal z t d window := by
  constructor
  · intro hactive
    by_contra hclosed
    rw [scheduleState_closed hclosed] at hactive
    cases hactive
  · rintro ⟨window, hwindow, d, hopen⟩
    rw [scheduleState_open hwindow hopen]

theorem covers_iff {t d : Int} {window : Window} : covers decimal z t d window = true ↔
    occurs d window = true ∧ (windowInterval decimal z d window).1 ≤ t ∧ t < (windowInterval decimal z d window).2 := by
  rw [covers, Bool.and_eq_true, Bool.and_eq_true, decide_eq_true_eq, decide_eq_true_eq, and_assoc]

theorem mem_candidates {now s : Int} : s ∈ candidates decimal z schedule now ↔ ∃ window ∈ schedule,
    ∃ d, z.date now ≤ d ∧ d ≤ z.date now + 7 ∧
    occurs d window = true ∧ (windowInterval decimal z d window).1 = s ∧ now < s := by
  unfold candidates
  simp only [List.mem_flatMap, List.mem_range, List.mem_filterMap]
  constructor
  · rintro ⟨offset, hoffset, window, hwindow, hs⟩
    split at hs
    case isFalse => cases hs
    case isTrue hoccurs =>
      split at hs
      case isFalse => cases hs
      case isTrue hlater =>
        cases hs
        exact ⟨window, hwindow, z.date now + offset, by omega, by omega, hoccurs, rfl, hlater⟩
  · rintro ⟨window, hwindow, d, hfrom, hto, hoccurs, rfl, hlater⟩
    refine ⟨(d - z.date now).toNat, by omega, window, hwindow, ?_⟩
    have hd : z.date now + (d - z.date now).toNat = d := by omega
    rw [hd, if_pos hoccurs, if_pos hlater]

theorem min_candidates {now s : Int} : (candidates decimal z schedule now).min? = some s ↔
    s ∈ candidates decimal z schedule now ∧ ∀ s' ∈ candidates decimal z schedule now, s ≤ s' := List.min?_eq_some_iff

/-- Where no occurrence contains an instant, one that contains a later instant begins after it. -/
theorem begins_later {now t d : Int} {window : Window} (hnone : ¬Contains decimal z schedule now)
    (hwindow : window ∈ schedule) (hlater : now < t)
    (hcovers : covers decimal z t d window = true) : now < (windowInterval decimal z d window).1 := by
  obtain ⟨hoccurs, hbegin, hend⟩ := covers_iff.mp hcovers
  by_contra hbefore
  exact hnone ⟨window, hwindow, d, covers_iff.mpr ⟨hoccurs, by omega, by omega⟩⟩

theorem mem_candidates_iff {now s : Int} : s ∈ candidates decimal z schedule now ↔
    ∃ window d, Searched z schedule now d window ∧ (windowInterval decimal z d window).1 = s ∧ now < s := by
  rw [mem_candidates]
  exact ⟨fun ⟨window, hwindow, d, hfrom, hto, hoccurs, hs⟩ => ⟨window, d, ⟨hwindow, hfrom, hto, hoccurs⟩, hs⟩,
    fun ⟨window, d, ⟨hwindow, hfrom, hto, hoccurs⟩, hs⟩ => ⟨window, hwindow, d, hfrom, hto, hoccurs, hs⟩⟩

/-- The clocks are set forward by the whole of an occurrence when it ends before it begins. -/
theorem emptied_iff {d : Int} {window : Window} : length decimal window ≤ setForward decimal z d window ↔
    (windowInterval decimal z d window).2 ≤ (windowInterval decimal z d window).1 := by
  unfold length setForward windowInterval combine Zone.instant
  dsimp only
  split
  · rw [Int.add_mul, Int.one_mul]
    omega
  · rw [Int.add_zero]
    omega

/-- An occurrence that is not lost is open at its beginning. -/
theorem open_of_not_lost {d : Int} {window : Window} (hoccurs : occurs d window = true)
    (hlost : ¬Lost decimal z d window) :
    Open decimal z (windowInterval decimal z d window).1 d window := by
  rw [Lost, emptied_iff, not_or, not_not] at hlost
  exact ⟨covers_iff.mpr ⟨hoccurs, Int.le_refl _, Int.not_le.mp hlost.1⟩, hlost.2⟩

theorem undisturbed_of_agrees {now : Int} (h : Agrees decimal z schedule now) : Undisturbed decimal z schedule now := by
  -- what is told is the first beginning that is searched, and the first instant at which one is open
  have hnext : ¬Contains decimal z schedule now → ∃ s ∈ candidates decimal z schedule now,
      (∀ s' ∈ candidates decimal z schedule now, s ≤ s') ∧ now < s ∧
      (∃ window ∈ schedule, ∃ d, Open decimal z s d window) ∧
        ∀ t, now < t → ∀ window ∈ schedule, ∀ d, Open decimal z t d window → s ≤ t := by
    intro hnone
    obtain ⟨s, hstate, hlater, hactive, hbefore⟩ := h.2 hnone
    rw [scheduleState_closed fun ⟨window, hwindow, d, hopen⟩ => hnone (hopen.contains hwindow)] at hstate
    obtain ⟨hcandidate, hfirst⟩ := min_candidates.mp (congrArg Prod.snd hstate)
    refine ⟨s, hcandidate, hfirst, hlater, active_iff.mp hactive, fun t ht window hwindow d hopen => ?_⟩
    by_contra hearly
    have hinactive := hbefore t ht (Int.not_le.mp hearly)
    rw [scheduleState_open hwindow hopen] at hinactive
    cases hinactive
  refine ⟨fun window hwindow d hcovers => ?_, fun hnone => ?_, fun hnone window d hsearched hbegins _ => ?_,
    fun hnone window hwindow d _ t ht hopen => ?_⟩
  · exact active_iff.mp (congrArg Prod.fst (h.1.mpr ⟨window, hwindow, d, hcovers⟩))
  · obtain ⟨s, hcandidate, -⟩ := hnext hnone
    obtain ⟨window, d, hsearched, rfl, hlater⟩ := mem_candidates_iff.mp hcandidate
    exact ⟨window, d, hsearched, hlater⟩
  · obtain ⟨s, -, hfirst, hlater, ⟨window', hwindow', d', hopen⟩, -⟩ := hnext hnone
    exact ⟨window', hwindow', d', s, hlater,
      hfirst _ (mem_candidates_iff.mpr ⟨window, d, hsearched, rfl, hbegins⟩), hopen⟩
  · obtain ⟨s, hcandidate, -, -, -, hleast⟩ := hnext hnone
    obtain ⟨window', d', hsearched, rfl, hlater⟩ := mem_candidates_iff.mp hcandidate
    exact ⟨window', d', hsearched, hlater, hleast t ht window hwindow d hopen⟩

/-- Nothing opens before the first beginning that is searched. -/
theorem Undisturbed.least {now s t d : Int} {window : Window} (h : Undisturbed decimal z schedule now)
    (hnone : ¬Contains decimal z schedule now)
    (hfirst : ∀ s' ∈ candidates decimal z schedule now, s ≤ s') (ht : now < t)
    (hwindow : window ∈ schedule) (hopen : Open decimal z t d window) : s ≤ t := by
  by_cases hdate : d < z.date now ∨ z.date now + 7 < d
  · obtain ⟨window', d', hsearched, hlater, hbegun⟩ := h.dated hnone window hwindow d hdate t ht hopen
    exact Int.le_trans (hfirst _ (mem_candidates_iff.mpr ⟨window', d', hsearched, rfl, hlater⟩)) hbegun
  · obtain ⟨hoccurs, hbegun, -⟩ := covers_iff.mp hopen.1
    have hlater := begins_later hnone hwindow ht hopen.1
    refine Int.le_trans (hfirst _ (mem_candidates_iff.mpr ⟨window, d, ⟨hwindow, ?_, ?_, hoccurs⟩, rfl, hlater⟩)) hbegun
    · omega
    · omega

theorem agrees_of_undisturbed {now : Int} (h : Undisturbed decimal z schedule now) : Agrees decimal z schedule now := by
  refine ⟨⟨fun hstate => ?_, fun hcontains => ?_⟩, fun hnone => ?_⟩
  · obtain ⟨window, hwindow, d, hopen⟩ := active_iff.mp (congrArg Prod.fst hstate)
    exact hopen.contains hwindow
  · obtain ⟨window, hwindow, d, hcovers⟩ := hcontains
    obtain ⟨window', hwindow', d', hopen⟩ := h.unstrayed window hwindow d hcovers
    exact scheduleState_open hwindow' hopen
  · obtain ⟨window, d, hsearched, hlater⟩ := h.begins hnone
    obtain ⟨s, hmin⟩ : ∃ s, (candidates decimal z schedule now).min? = some s := by
      refine Option.isSome_iff_exists.mp
        (List.isSome_min?_of_mem (mem_candidates_iff.mpr ⟨window, d, hsearched, rfl, hlater⟩))
    obtain ⟨hcandidate, hfirst⟩ := min_candidates.mp hmin
    obtain ⟨window, d, hsearched, rfl, hlater⟩ := mem_candidates_iff.mp hcandidate
    have hopen : ∃ window' ∈ schedule, ∃ d', Open decimal z (windowInterval decimal z d window).1 d' window' := by
      by_cases hlost : Lost decimal z d window
      · obtain ⟨window', hwindow', d', t, ht, hbefore, hopen⟩ := h.unlost hnone window d hsearched hlater hlost
        have hsame : t = (windowInterval decimal z d window).1 :=
            Int.le_antisymm hbefore (h.least hnone hfirst ht hwindow' hopen)
        exact ⟨window', hwindow', d', hsame ▸ hopen⟩
      · exact ⟨window, hsearched.1, d, open_of_not_lost hsearched.2.2.2 hlost⟩
    refine ⟨_, ?_, hlater, active_iff.mpr hopen, fun t ht hts => Bool.eq_false_iff.mpr fun hactive => ?_⟩
    · rw [scheduleState_closed fun ⟨window', hwindow', d', hopen⟩ => hnone (hopen.contains hwindow'), hmin]
    · obtain ⟨window', hwindow', d', hopen'⟩ := active_iff.mp hactive
      exact absurd (h.least hnone hfirst ht hwindow' hopen') (Int.not_le.mpr hts)

/-! ### Clocks that are not set -/

/-- Every window occurs in the seven days after a date. -/
theorem exists_occurs (d : Int) {window : Window} (h : Accepted decimal window) :
    ∃ d', d < d' ∧ d' ≤ d + 7 ∧ occurs d' window = true := by
  obtain ⟨w, hmem, hw⟩ := h.weekday
  refine ⟨d + 1 + (w - (d + 4)) % 7, by omega, by omega, ?_⟩
  have hweekday : weekday (d + 1 + (w - (d + 4)) % 7) = w := by
    unfold weekday
    omega
  simp [occurs, hweekday, hmem]

/-- An occurrence lasts, and ends by the end of the day after its date. -/
theorem length_bounds {window : Window} (h : Accepted decimal window) :
    0 < length decimal window ∧ clock decimal window.startTime * minute + length decimal window < 2 * day := by
  have hstart := h.start
  have hstop := h.stop
  unfold length day minute
  split
  · omega
  · next hsame =>
    have hordered := h.ordered (String.not_le.mp hsame)
    omega

section Calm
variable {now t d : Int} {window : Window} (hcalm : Calm z now)
include hcalm

theorem Calm.combine_eq {value : String} (hvalue : clock decimal value < 24 * 60)
    (hfrom : z.date now - 10 ≤ d) (hto : d ≤ z.date now + 11) :
    combine decimal z d value = d * day + clock decimal value * minute - z.offsetAt now := by
  have hwall : z.wallOffset false (d * day + clock decimal value * minute) = z.offsetAt now := by
    unfold Zone.date at hfrom hto
    refine hcalm.wallOffset _ ?_ ?_ <;> unfold day minute at * <;> omega
  rw [combine, Zone.instant, hwall]

theorem Calm.date_eq (hfrom : now - 12 * day ≤ t) (hto : t ≤ now + 12 * day) :
    z.date t = (t + z.offsetAt now) / day := by
  rw [Zone.date, Zone.wall, hcalm.offset t hfrom hto]

/-- The ends of an occurrence of a date near the instant, as the clocks show them there. -/
theorem Calm.interval (hwindow : Accepted decimal window) (hfrom : z.date now - 10 ≤ d) (hto : d ≤ z.date now + 10) :
    (windowInterval decimal z d window).1 = d * day + clock decimal window.startTime * minute - z.offsetAt now ∧
      (windowInterval decimal z d window).2 = (windowInterval decimal z d window).1 + length decimal window := by
  unfold windowInterval length
  dsimp only
  rw [hcalm.combine_eq hwindow.start hfrom (by omega)]
  refine ⟨rfl, ?_⟩
  split
  · rw [hcalm.combine_eq hwindow.stop (by omega) (by omega), Int.add_mul, Int.one_mul]
    omega
  · rw [Int.add_zero, hcalm.combine_eq hwindow.stop hfrom (by omega)]
    omega

/-- It is not lost. -/
theorem Calm.not_lost (hwindow : Accepted decimal window) (hfrom : z.date now - 10 ≤ d) (hto : d ≤ z.date now + 10) :
    ¬Lost decimal z d window := by
  obtain ⟨hbegin, hend⟩ := hcalm.interval hwindow hfrom hto
  have hlength := (length_bounds hwindow).1
  have hstart := hwindow.start
  have hdate : z.date (windowInterval decimal z d window).1 = d := by
    unfold Zone.date Zone.wall at hfrom hto
    rw [hcalm.date_eq, hbegin] <;> unfold day minute at * <;> omega
  rw [Lost, emptied_iff, hdate]
  omega

/-- Occurrences that contain an instant near this one are of its date or of the day before. -/
theorem Calm.dated (hfrom : now ≤ t) (hto : t ≤ now + 8 * day) (hwindow : Accepted decimal window)
    (hcovers : covers decimal z t d window = true) : d = z.date t - 1 ∨ d = z.date t := by
  obtain ⟨-, hbegin, hend⟩ := covers_iff.mp hcovers
  have hdate := hcalm.date_eq (t := t) (by unfold day minute; omega) (by unfold day minute at *; omega)
  have hnow : z.date now = (now + z.offsetAt now) / day := rfl
  have hoffset := hcalm.bounded now
  have hstart := hwindow.start
  have hstop := hwindow.stop
  -- offsets of less than a day leave it within a few days
  have hnear : z.date t - 3 ≤ d ∧ d ≤ z.date t + 2 := by
    unfold windowInterval combine Zone.instant at hbegin hend
    dsimp only at hbegin hend
    have hfirst := hcalm.bounded (d * day + clock decimal window.startTime * minute)
    have hlast := hcalm.bounded ((d + if window.endTime ≤ window.startTime then 1
        else 0) * day + clock decimal window.endTime * minute)
    rw [hdate]
    split at hend <;> rename_i hsame <;> simp only [hsame, if_true, if_false] at hlast <;>
      unfold day minute at * <;> omega
  obtain ⟨hbegins, hends⟩ := hcalm.interval (d := d) hwindow (by unfold day minute at *; omega)
    (by unfold day minute at *; omega)
  have hlength := (length_bounds hwindow).2
  unfold day minute at *
  omega

end Calm

theorem undisturbed_of_calm {now : Int} (hnonempty : schedule ≠ [])
    (hschedule : ∀ window ∈ schedule, Accepted decimal window)
    (hcalm : Calm z now) : Undisturbed decimal z schedule now := by
  have hwall : z.date now = (now + z.offsetAt now) / day := rfl
  obtain ⟨window, hwindow⟩ := List.exists_mem_of_ne_nil schedule hnonempty
  obtain ⟨d, hfrom, hto, hoccurs⟩ := exists_occurs (z.date now) (hschedule window hwindow)
  have hbegins := (hcalm.interval (d := d) (hschedule window hwindow) (by omega) (by omega)).1
  have hstart := (hschedule window hwindow).start
  have hlater : now < (windowInterval decimal z d window).1 := by
    rw [hbegins]
    unfold day minute at *
    omega
  have hsearched : Searched z schedule now d window := ⟨hwindow, by omega, hto, hoccurs⟩
  refine ⟨fun window hwindow d hcovers => ?_, fun _ => ⟨window, d, hsearched, hlater⟩,
    fun _ window d hsearched _ hlost => ?_,
    fun hnone window' hwindow' d' hd' t ht hopen => ?_⟩
  · have hdated := hcalm.dated (Int.le_refl _) (by unfold day minute; omega) (hschedule window hwindow) hcovers
    exact ⟨window, hwindow, d, hcovers, by omega⟩
  · have hnear := hsearched.2
    exact absurd hlost (hcalm.not_lost (hschedule window hsearched.1) (by omega) (by omega))
  · by_cases hbegun : (windowInterval decimal z d window).1 ≤ t
    · exact ⟨window, d, hsearched, hlater, hbegun⟩
    · -- an occurrence that is open before that one begins is searched as well
      have hdate := hcalm.date_eq (t := t) (by unfold day minute; omega) (by unfold day minute at *; omega)
      have hstart' := (hschedule window' hwindow').start
      have hbegins' := begins_later hnone hwindow' ht hopen.1
      obtain ⟨-, hbefore, -⟩ := covers_iff.mp hopen.1
      have hdated := hopen.2
      rw [(hcalm.interval (d := d') (hschedule window' hwindow') (by unfold day minute at *; omega)
        (by unfold day minute at *; omega)).1]
        at hbegins' hbefore
      exfalso
      unfold day minute at *
      omega

end Config

/-- The state and the next opening are right where no clock change disturbs what is found; and none does
where no clock is set. -/
theorem schedule_agrees_iff (decimal : Char → Nat) (z : Zone) (schedule : List Window) (now : Int) :
    (Agrees decimal z schedule now ↔ Undisturbed decimal z schedule now) ∧
      (schedule ≠ [] → (∀ window ∈ schedule, Accepted decimal window) → Calm z now →
        Undisturbed decimal z schedule now) :=
  ⟨⟨undisturbed_of_agrees, agrees_of_undisturbed⟩, undisturbed_of_calm⟩

/-- The clocks of Paris in spring 2026: at 01:00 UTC on the 29th of March, from 02:00 to 03:00. -/
def paris : Zone := .changing (1774746000 * 1000000) (60 * minute) (120 * minute)

/-- Sundays from 02:30 to 03:00. -/
def skipped : List Window := [⟨[6], "02:30", "03:00"⟩]

/-- At midnight UTC before the clocks are set the next opening is told to be at 01:30 UTC, when the schedule
is not open; nor is it a week later at midnight UTC, but at 00:30 UTC it is. -/
theorem opening_not_open : scheduleState (fun c => c.toNat - 48) paris skipped
    (1774742400 * 1000000) = (false, some (1774747800 * 1000000)) ∧
    (scheduleState (fun c => c.toNat - 48) paris skipped (1774747800 * 1000000)).1 = false ∧
    (scheduleState (fun c => c.toNat - 48) paris skipped ((1774742400 + 7 * 86400 + 1800) * 1000000)).1 = true := by
  refine ⟨by decide +kernel, by decide +kernel, by decide +kernel⟩

end Galaris.Goal.Schedule
