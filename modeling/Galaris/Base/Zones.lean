import Mathlib.Init

/-! Instants, wall times and time zones.

Both are counted in microseconds. A zone says the offset of every instant, and the offset that a wall time is
read with: a wall time that comes twice, or not at all, is read in two ways, told apart by `fold`. Nothing is
assumed of a zone; `Zone.changing` is one whose clocks are set once. -/
namespace Zones

def minute : Int := 60 * 1000000
def day : Int := 24 * 60 * minute

/-- The offsets of the instants, and those of the wall times. -/
structure Zone where
  offsetAt : Int → Int
  wallOffset : Bool → Int → Int

namespace Zone
variable (z : Zone)

/-- What the clocks show at an instant. -/
def wall (t : Int) : Int := t + z.offsetAt t

/-- The instant that a wall time is read as. -/
def instant (fold : Bool) (w : Int) : Int := w - z.wallOffset fold w

/-- The date at an instant, in days. -/
def date (t : Int) : Int := z.wall t / day

/-- The clocks are set once: a wall time is read with the offset before until the later of the two wall times of that
instant, or the earlier one. -/
def changing (instant before after : Int) : Zone where
  offsetAt t := if t < instant then before else after
  wallOffset fold w := if w < instant + (if fold then min before after else max before after) then before else after

end Zone

end Zones
