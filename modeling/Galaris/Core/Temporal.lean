import Galaris.Base.Zones
import Mathlib.Data.Int.LeastGreatest
import Mathlib.Data.List.FinRange

/-! Calendar constraints (`core/util/temporal.py`).

An anchor fixes some components of the local calendar and leaves the others open. `nextMatch` looks for the first
instant of a window whose local minute has the components: it walks the local dates from that of the start to that
of the end, and of the first date with an occurrence takes the earliest one. The dates need not follow the order of
the instants; `next_match_earliest_iff` says when they do as far as the search goes. -/
namespace Galaris.Core.Temporal

open Zones

/-- `TemporalAnchor`; unset components are wildcards. -/
structure TemporalAnchor where
  year : Option Int := none
  month : Option Int := none
  day : Option Int := none
  weekday : Option Int := none
  hour : Option (Fin 24) := none
  minute : Option (Fin 60) := none
deriving Repr

/-! ### The calendar -/

/-- Year, month and day of a date, which is counted in days from the first of January 1970. Years begin in
March here, so that the leap day is the last one. -/
def civil (d : Int) : Int × Int × Int :=
  let shifted := d + 719468
  let era := shifted / 146097
  let ofEra := shifted % 146097
  let yearOfEra := (ofEra - ofEra / 1460 + ofEra / 36524 - ofEra / 146096) / 365
  let ofYear := ofEra - (365 * yearOfEra + yearOfEra / 4 - yearOfEra / 100)
  let fromMarch := (5 * ofYear + 2) / 153
  let month := if fromMarch < 10 then fromMarch + 3 else fromMarch - 9
  (yearOfEra + era * 400 + (if month ≤ 2 then 1 else 0), month, ofYear - (153 * fromMarch + 2) / 5 + 1)

example : [-1, 0, 11016, 11017, 20089].map civil =
    [(1969, 12, 31), (1970, 1, 1), (2000, 2, 29), (2000, 3, 1), (2025, 1, 1)] := by decide

/-- `date.isoweekday`; the first of January 1970 was a Thursday. -/
def isoweekday (d : Int) : Int := (d + 3) % 7 + 1

/-- `expected is None or actual == expected`. -/
def agrees (expected : Option Int) (actual : Int) : Bool := expected.all (actual == ·)

def hourOf (w : Int) : Int := w % day / (60 * minute)
def minuteOf (w : Int) : Int := w / minute % 60

section Config
variable (z : Zone) (anchor : TemporalAnchor)

/-- The date has the components of the anchor. -/
def dateMatches (d : Int) : Bool :=
  agrees anchor.year (civil d).1 && agrees anchor.month (civil d).2.1 &&
    agrees anchor.day (civil d).2.2 && agrees anchor.weekday (isoweekday d)

/-- So does the minute. -/
def timeMatches (w : Int) : Bool :=
  agrees (anchor.hour.map fun h => h.val) (hourOf w) && agrees (anchor.minute.map fun m => m.val) (minuteOf w)

/-- The local minute at an instant has the components of the anchor. -/
def matchesAt (t : Int) : Bool := dateMatches anchor (z.date t) && timeMatches anchor (z.wall t)

/-- The hours and minutes that are tried. -/
def hours : List (Fin 24) := anchor.hour.elim (List.finRange 24) fun h => [h]
def minutes : List (Fin 60) := anchor.minute.elim (List.finRange 60) fun m => [m]

/-- The wall time of an hour and a minute on a date. -/
def combine (d : Int) (h : Fin 24) (m : Fin 60) : Int := d * day + (h.val * 60 + m.val) * minute

/-- The occurrences of a date in the window: both folds of each wall time that are read back. -/
def candidates (start stop d : Int) : List Int :=
  (hours anchor).flatMap fun hour => (minutes anchor).flatMap fun minute => [false, true].filterMap fun fold =>
    let naive := combine d hour minute
    let instant := z.instant fold naive
    if z.wall instant ≠ naive then none
    else if instant ≤ stop ∧ start < instant + Zones.minute then some (max instant start)
    else none

/-- What a date gives. -/
def onDate (start stop d : Int) : Option Int :=
    if dateMatches anchor d then (candidates z anchor start stop d).min? else none

/-- The walk over a number of dates, from one on. -/
def walk (start stop : Int) : Nat → Int → Option Int
  | 0, _ => none
  | n + 1, current => (onDate z anchor start stop current).or (walk start stop n (current + 1))

/-- `next_match`. -/
def nextMatch (start stop : Int) : Except String (Option Int) :=
  if stop < start then .error "Use an ordered, timezone-aware interval."
  else if matchesAt z anchor start then .ok (some start)
  else .ok (walk z anchor start stop (z.date stop + 1 - z.date start).toNat (z.date start))

/-! ### The window -/

/-- An ordered window. -/
structure Window where
  start : Int
  stop : Int
  ordered : start ≤ stop

variable (w : Window)

/-- An instant of the window whose local minute has the components. -/
def Matches (t : Int) : Prop := w.start ≤ t ∧ t ≤ w.stop ∧ matchesAt z anchor t = true

/-- The first one. -/
def First (t : Int) : Prop := Matches z anchor w t ∧ ∀ t', Matches z anchor w t' → t ≤ t'

/-- What is told is the first one, and nothing where there is none. -/
def Earliest : Prop :=
  (∃ t, nextMatch z anchor w.start w.stop = .ok (some t) ∧ First z anchor w t) ∨
    nextMatch z anchor w.start w.stop = .ok none ∧ ∀ t, ¬Matches z anchor w t

/-- A local minute begins at the instant, and is read as beginning there. -/
def Begins (b : Int) : Prop := minute ∣ z.wall b ∧ ∃ fold, z.instant fold (z.wall b) = b

/-- A minute of the date that has the components began less than a minute before the start. -/
def Pending (d : Int) : Prop := ∃ b, Begins z b ∧ z.date b = d ∧ matchesAt z anchor b = true ∧
    b < w.start ∧ w.start < b + minute

/-- The dates follow the order of the instants as far as the search goes. Either the start has the
components; or the first instant that has them begins a minute, on a date between those of the start and of
the end, no minute with the components begins later in the window on an earlier one of these dates, and no
such minute was cut short by the clocks just before the start on one that is not later. -/
def Regular : Prop :=
  matchesAt z anchor w.start = true ∨
    (∀ t, First z anchor w t → Begins z t ∧ z.date w.start ≤ z.date t ∧ z.date t ≤ z.date w.stop ∧
      ∀ b, Begins z b → Matches z anchor w b → z.date w.start ≤ z.date b → z.date t ≤ z.date b) ∧
    ∀ d, Pending z anchor w d → z.date w.start ≤ d → d ≤ z.date w.stop → ∃ t, First z anchor w t ∧ z.date t < d

/-! ### Occurrences -/

variable {z anchor w}

theorem day_combine (d : Int) (h : Fin 24) (m : Fin 60) : combine d h m / day = d := by
  have hh := h.isLt
  have hm := m.isLt
  simp only [combine, day, minute]
  omega

theorem hourOf_combine (d : Int) (h : Fin 24) (m : Fin 60) : hourOf (combine d h m) = h.val := by
  have hh := h.isLt
  have hm := m.isLt
  simp only [hourOf, combine, day, minute]
  omega

theorem minuteOf_combine (d : Int) (h : Fin 24) (m : Fin 60) : minuteOf (combine d h m) = m.val := by
  have hh := h.isLt
  have hm := m.isLt
  simp only [minuteOf, combine, day, minute]
  omega

theorem minute_dvd_combine (d : Int) (h : Fin 24) (m : Fin 60) : minute ∣ combine d h m := by
  simp only [combine, day, minute]
  omega

theorem exists_combine {t : Int} (h : minute ∣ t) : ∃ hour minute, combine (t / day) hour minute = t := by
  simp only [minute] at h
  refine ⟨⟨(hourOf t).toNat, ?_⟩, ⟨(minuteOf t).toNat, ?_⟩, ?_⟩ <;>
    simp only [combine, hourOf, minuteOf, day, minute] <;> omega

theorem mem_hours {h : Fin 24} : h ∈ hours anchor ↔ agrees (anchor.hour.map fun h => h.val) h.val = true := by
  cases hhour : anchor.hour with
  | none => simp [hours, agrees, hhour]
  | some k => simp [hours, agrees, hhour, Fin.ext_iff]

theorem mem_minutes {m : Fin 60} : m ∈ minutes anchor ↔ agrees (anchor.minute.map fun m => m.val) m.val = true := by
  cases hminute : anchor.minute with
  | none => simp [minutes, agrees, hminute]
  | some k => simp [minutes, agrees, hminute, Fin.ext_iff]

/-- The candidates of a date are the beginnings of its minutes with the components, those that are under way
at the start counted from there. -/
theorem mem_candidates {start stop d t : Int} : t ∈ candidates z anchor start stop d ↔
    ∃ b, Begins z b ∧ z.date b = d ∧ timeMatches anchor (z.wall b) = true ∧ b ≤ stop ∧
    start < b + minute ∧ max b start = t := by
  simp only [candidates, List.mem_flatMap, List.mem_filterMap, Option.ite_none_left_eq_some,
    Option.ite_none_right_eq_some, Option.some.injEq, not_not]
  constructor
  · rintro ⟨h, hh, m, hm, fold, -, hback, ⟨hstop, hstart⟩, ht⟩
    refine ⟨z.instant fold (combine d h m), ⟨?_, fold, by rw [hback]⟩, ?_, ?_, hstop, hstart, ht⟩
    · rw [hback]
      exact minute_dvd_combine d h m
    · rw [Zone.date, hback, day_combine]
    · rw [timeMatches, hback, hourOf_combine, minuteOf_combine, mem_hours.mp hh, mem_minutes.mp hm]
      rfl
  · rintro ⟨b, ⟨hminute, fold, hfold⟩, rfl, htime, hstop, hstart, ht⟩
    obtain ⟨h, m, hcombine⟩ := exists_combine hminute
    have hdate : combine (z.date b) h m = z.wall b := hcombine
    rw [← hdate, timeMatches, hourOf_combine, minuteOf_combine, Bool.and_eq_true] at htime
    refine ⟨h, mem_hours.mpr htime.1, m, mem_minutes.mpr htime.2, fold, by cases fold <;> simp, ?_⟩
    rw [hdate, hfold]
    exact ⟨rfl, ⟨hstop, hstart⟩, ht⟩

variable (z anchor w) in
/-- What the walk looks for: a minute with the components begins, and reaches into the window. -/
def Found (b : Int) : Prop := Begins z b ∧ matchesAt z anchor b = true ∧ b ≤ w.stop ∧ w.start < b + minute

theorem mem_onDate {d t : Int} (hd : dateMatches anchor d = true) :
    t ∈ candidates z anchor w.start w.stop d ↔ ∃ b, Found z anchor w b ∧ z.date b = d ∧ max b w.start = t := by
  rw [mem_candidates]
  constructor
  · rintro ⟨b, hbegins, rfl, htime, hstop, hstart, ht⟩
    exact ⟨b, ⟨hbegins, by rw [matchesAt, hd, htime]; rfl, hstop, hstart⟩, rfl, ht⟩
  · rintro ⟨b, ⟨hbegins, hmatches, hstop, hstart⟩, rfl, ht⟩
    exact ⟨b, hbegins, rfl, (Bool.and_eq_true_iff.mp hmatches).2, hstop, hstart, ht⟩

theorem dateMatches_of_found {b : Int} (h : Found z anchor w b) :
    dateMatches anchor (z.date b) = true := (Bool.and_eq_true_iff.mp h.2.1).1

theorem onDate_none {d b : Int} (h : onDate z anchor w.start w.stop d = none)
    (hb : Found z anchor w b) : z.date b ≠ d := by
  rintro rfl
  have hd := dateMatches_of_found hb
  rw [onDate, if_pos hd, List.min?_eq_none_iff] at h
  have hmem := (mem_onDate hd).mpr ⟨b, hb, rfl, rfl⟩
  rw [h] at hmem
  cases hmem

theorem onDate_some {d t : Int} (h : onDate z anchor w.start w.stop d = some t) :
    (∃ b, Found z anchor w b ∧ z.date b = d ∧ max b w.start = t) ∧ ∀ b, Found z anchor w b →
    z.date b = d → t ≤ max b w.start := by
  obtain ⟨hd, hmin⟩ := Option.ite_none_right_eq_some.mp h
  obtain ⟨hmem, hleast⟩ := List.min?_eq_some_iff.mp hmin
  exact ⟨(mem_onDate hd).mp hmem, fun b hb hdate => hleast _ ((mem_onDate hd).mpr ⟨b, hb, hdate, rfl⟩)⟩

theorem walk_none {n : Nat} {d b : Int} (h : walk z anchor w.start w.stop n d = none)
    (hb : Found z anchor w b) (hd : d ≤ z.date b) :
    d + n ≤ z.date b := by
  induction n generalizing d with
  | zero => omega
  | succ n ih =>
    obtain ⟨hnow, hlater⟩ := Option.or_eq_none_iff.mp h
    have hne := onDate_none hnow hb
    have hbound := ih hlater (by omega)
    omega

/-- The walk ends on the first date where something is found, with the earliest beginning of that date. -/
theorem walk_some {n : Nat} {d t : Int} (h : walk z anchor w.start w.stop n d = some t) :
    ∃ b, Found z anchor w b ∧ d ≤ z.date b ∧ z.date b < d + n ∧
    max b w.start = t ∧ ∀ b', Found z anchor w b' → d ≤ z.date b' → z.date b ≤ z.date b' ∧
        (z.date b' = z.date b → t ≤ max b' w.start) := by
  induction n generalizing d with
  | zero => cases h
  | succ n ih =>
    obtain hnow | ⟨hnow, hlater⟩ := Option.or_eq_some_iff.mp h
    · obtain ⟨⟨b, hb, rfl, ht⟩, hleast⟩ := onDate_some hnow
      exact ⟨b, hb, Int.le_refl _, by omega, ht, fun b' hb' hd => ⟨hd, hleast b' hb'⟩⟩
    · obtain ⟨b, hb, hfrom, hto, ht, hleast⟩ := ih hlater
      refine ⟨b, hb, by omega, by omega, ht, fun b' hb' hd => hleast b' hb' ?_⟩
      have hne := onDate_none hnow hb'
      omega

/-! ### The first match -/

theorem exists_first {t : Int} (h : Matches z anchor w t) : ∃ s, First z anchor w s :=
  Int.exists_least_of_bdd ⟨w.start, fun _ h => h.1⟩ ⟨t, h⟩

theorem First.unique {s t : Int} (hs : First z anchor w s) (ht : First z anchor w t) : s = t :=
    Int.le_antisymm (hs.2 t ht.1) (ht.2 s hs.1)

/-- What is found has begun before the start, or is itself in the window. -/
theorem Found.cases {b : Int} (h : Found z anchor w b) (hstart : matchesAt z anchor w.start = false) :
    b < w.start ∧ Pending z anchor w (z.date b) ∨ w.start < b ∧ Matches z anchor w b := by
  obtain ⟨hbegins, hmatches, hstop, hreaches⟩ := h
  obtain hlt | rfl | hgt := Int.lt_trichotomy b w.start
  · exact .inl ⟨hlt, b, hbegins, rfl, hmatches, hlt, hreaches⟩
  · rw [hmatches] at hstart
    cases hstart
  · exact .inr ⟨hgt, Int.le_of_lt hgt, hstop, hmatches⟩

theorem Matches.found {b : Int} (h : Matches z anchor w b) (hbegins : Begins z b) : Found z anchor w b :=
  ⟨hbegins, h.2.2, h.2.1, Int.lt_of_le_of_lt h.1 (by simp only [minute]; omega)⟩

theorem Pending.found {d : Int} (h : Pending z anchor w d) : ∃ b, Found z anchor w b ∧ z.date b = d ∧ b < w.start := by
  obtain ⟨b, hbegins, hd, hmatches, hbefore, hreaches⟩ := h
  exact ⟨b, ⟨hbegins, hmatches, Int.le_of_lt (Int.lt_of_lt_of_le hbefore w.ordered), hreaches⟩, hd, hbefore⟩

theorem nextMatch_start (h : matchesAt z anchor w.start = true) :
    nextMatch z anchor w.start w.stop = .ok (some w.start) := by
  rw [nextMatch, if_neg (Int.not_lt.mpr w.ordered), if_pos h]

theorem nextMatch_walk (h : matchesAt z anchor w.start = false) : nextMatch z anchor w.start w.stop =
    .ok (walk z anchor w.start w.stop (z.date w.stop + 1 - z.date w.start).toNat (z.date w.start)) := by
  rw [nextMatch, if_neg (Int.not_lt.mpr w.ordered), if_neg (by rw [h]; exact Bool.false_ne_true)]

theorem earliest_start (h : matchesAt z anchor w.start = true) : Earliest z anchor w :=
  .inl ⟨w.start, nextMatch_start h, ⟨Int.le_refl _, w.ordered, h⟩, fun _ ht => ht.1⟩

/-- Where nothing is found, the answer is right exactly where the dates are. -/
theorem earliest_iff_of_none (hstart : matchesAt z anchor w.start = false)
    (hwalk : walk z anchor w.start w.stop (z.date w.stop + 1 - z.date w.start).toNat (z.date w.start) = none) :
    Earliest z anchor w ↔ Regular z anchor w := by
  have hnone {b : Int} (hb : Found z anchor w b) (hfrom : z.date w.start ≤ z.date b)
      (hto : z.date b ≤ z.date w.stop) : False := by
    have hbound := walk_none hwalk hb hfrom
    omega
  rw [Earliest, nextMatch_walk hstart, hwalk, Regular, hstart]
  constructor
  · rintro (⟨t, ht, -⟩ | ⟨-, hempty⟩)
    · cases ht
    · refine .inr ⟨fun t ht => absurd ht.1 (hempty t), fun d hd hfrom hto => ?_⟩
      obtain ⟨b, hb, rfl, -⟩ := hd.found
      exact (hnone hb hfrom hto).elim
  · rintro (h | ⟨hfirst, -⟩)
    · cases h
    · refine .inr ⟨rfl, fun t ht => ?_⟩
      obtain ⟨s, hs⟩ := exists_first ht
      obtain ⟨hbegins, hfrom, hto, -⟩ := hfirst s hs
      exact hnone (hs.1.found hbegins) hfrom hto

/-- Where a beginning is found, it is the first one exactly where the dates follow the instants. -/
theorem earliest_iff_of_some {t : Int} (hstart : matchesAt z anchor w.start = false)
    (hwalk : walk z anchor w.start w.stop (z.date w.stop + 1 - z.date w.start).toNat (z.date w.start) = some t) :
    Earliest z anchor w ↔ Regular z anchor w := by
  obtain ⟨b, hb, hfrom, hto, ht, hleast⟩ := walk_some hwalk
  have hdate : z.date b ≤ z.date w.stop := by omega
  rw [Earliest, nextMatch_walk hstart, hwalk, Regular, hstart]
  constructor
  · rintro (⟨s, hs, hfirst⟩ | ⟨hnone, -⟩)
    · cases hs
      -- The start is no match, so what was found began after it, and is the match itself.
      have hlater : w.start < b := by
        by_contra hbefore
        have hstarts : max b w.start = w.start := Int.max_eq_right (Int.not_lt.mp hbefore)
        have hmatches := hfirst.1.2.2
        rw [← ht, hstarts, hstart] at hmatches
        cases hmatches
      rw [Int.max_eq_left (Int.le_of_lt hlater)] at ht
      subst ht
      refine .inr ⟨fun s hs => ?_, fun d hd hfrom' _ => ⟨b, hfirst, ?_⟩⟩
      · obtain rfl := hs.unique hfirst
        exact ⟨hb.1, hfrom, hdate, fun b' hbegins hmatches hfrom' => (hleast b' (hmatches.found hbegins) hfrom').1⟩
      · obtain ⟨b', hb', rfl, hbefore⟩ := hd.found
        obtain ⟨hle, hsame⟩ := hleast b' hb' hfrom'
        refine lt_of_le_of_ne hle fun heq => ?_
        have hmax := hsame heq.symm
        rw [Int.max_eq_right (Int.le_of_lt hbefore)] at hmax
        omega
    · cases hnone
  · rintro (h | ⟨hfirst, hpending⟩)
    · cases h
    · obtain ⟨hbefore, hcut⟩ | ⟨hafter, hmatches⟩ := hb.cases hstart
      · obtain ⟨s, hs, hlt⟩ := hpending _ hcut hfrom hdate
        obtain ⟨hbegins, hfrom', -, -⟩ := hfirst s hs
        have hle := (hleast s (hs.1.found hbegins) hfrom').1
        omega
      · obtain ⟨s, hs⟩ := exists_first hmatches
        obtain ⟨hbegins, hfrom', -, hothers⟩ := hfirst s hs
        obtain ⟨hle, hsame⟩ := hleast s (hs.1.found hbegins) hfrom'
        have heq : z.date s = z.date b := Int.le_antisymm (hothers b hb.1 hmatches hfrom) hle
        have hmax := hsame heq
        rw [Int.max_eq_left hs.1.1, ← ht, Int.max_eq_left (Int.le_of_lt hafter)] at hmax
        have hbs : b = s := Int.le_antisymm hmax (hs.2 b hmatches)
        rw [← ht, Int.max_eq_left (Int.le_of_lt hafter), hbs]
        exact .inl ⟨s, rfl, hs⟩

end Config

/-- The first match is told exactly where the dates follow the order of the instants as far as the search goes. -/
theorem next_match_earliest_iff (z : Zone) (anchor : TemporalAnchor) (w : Window) :
    Earliest z anchor w ↔ Regular z anchor w := by
  cases hstart : matchesAt z anchor w.start with
  | true => exact ⟨fun _ => .inl hstart, fun _ => earliest_start hstart⟩
  | false =>
    cases hwalk : walk z anchor w.start w.stop (z.date w.stop + 1 - z.date w.start).toNat (z.date w.start) with
    | none => exact earliest_iff_of_none hstart hwalk
    | some t => exact earliest_iff_of_some hstart hwalk

/-- The clocks of Saint John's in autumn 2010: at 02:31 UTC on the 7th of November, one minute past
midnight, back to 23:01 of the day before. -/
def stJohns : Zone := .changing (1289097060 * 1000000) (-150 * minute) (-210 * minute)

/-- From half a minute after midnight, 02:30:30 UTC, to 03:30 UTC. -/
def evening : Window := ⟨1289097030 * 1000000, 1289100600 * 1000000, by decide⟩

/-- The half hours. At 03:00 UTC the clocks show 23:30, on the day before that of the start: no match is told. -/
theorem second_evening_missed : nextMatch stJohns {minute := some 30} evening.start evening.stop = .ok none ∧
    Matches stJohns {minute := some 30} evening (1289098800 * 1000000) ∧
        ¬Earliest stJohns {minute := some 30} evening := by
  have hnone : nextMatch stJohns {minute := some 30} evening.start evening.stop = .ok none := by decide +kernel
  have hmatches : Matches stJohns {minute := some 30} evening (1289098800 * 1000000) :=
      ⟨by decide, by decide, by decide +kernel⟩
  refine ⟨hnone, hmatches, ?_⟩
  rintro (⟨t, ht, -⟩ | ⟨-, hempty⟩)
  · rw [hnone] at ht
    cases ht
  · exact hempty _ hmatches

end Galaris.Core.Temporal
