import Scheduling.Cumulative.Profile
import Scheduling.Propagator

/-!
# Activities

An activity changes the level of a resource by its height while its interval executes; the level has
to stay within a capacity wherever a present activity executes. Models of `Activity` and of what
`GeneralizedCumulativePropagator` asks about its capacity.

* `Propagation.restrict`: keeps exactly the values of a height that lie in a range, and touches only
  the side that has to move.
-/

namespace Scheduling

/-- An interval with the amount by which it changes the level of a resource (`Activity`). -/
structure Activity where
  interval : IntervalId
  height : Variable
  deriving DecidableEq, Repr

namespace Activity

/-- The activity certainly executes from its latest start up to its earliest end, if it is present
(`has_fixed_part`). -/
def hasFixedPart (a : Activity) (d : Domains) : Except Fault Bool := do
  let v ← d.interval a.interval
  return v.startMax < v.endMin

/-- The interval of the activity is present (`is_present`). -/
def isPresent (a : Activity) (d : Domains) : Except Fault Bool := do
  return (← d.interval a.interval).isPresent

/-- The activity is absent, or present with a known start, end and height (`is_fixed`). -/
def isFixed (a : Activity) (d : Domains) : Except Fault Bool := do
  let v ← d.interval a.interval
  if v.isAbsent then return true
  if v.isPresent && v.isFixed then a.height.isFixed d else return false

/-- What is known about the activity (`capture_bounds`). -/
def bounds (a : Activity) (d : Domains) : Except Fault ActivityBounds := do
  let v ← d.interval a.interval
  return { v.toBounds with
    heightMin := ← a.height.lower d
    heightMax := ← a.height.upper d
    isPresent := v.isPresent
    isFixed := ← a.isFixed d }

/-- Waits for any change of the interval and of the height. -/
def watches (a : Activity) : List Watch :=
  [.interval a.interval .anyInterval, .variable a.height .bounds]

end Activity

/-- The levels that a resource allows. -/
structure Capacity where
  minimum : Int
  maximum : Int
  deriving DecidableEq, Repr

namespace Capacity

/-- The minimum of a resource without a lower limit (`UNBOUNDED_MIN_CAPACITY`). -/
def unlimitedMinimum : Int := -2305843009213693952

/-- The maximum of a resource without an upper limit (`UNBOUNDED_MAX_CAPACITY`). -/
def unlimitedMaximum : Int := 2305843009213693951

/-- There is a lower limit (`has_min_capacity`). -/
def hasMinimum (c : Capacity) : Bool := c.minimum > unlimitedMinimum

/-- There is an upper limit (`has_max_capacity`). -/
def hasMaximum (c : Capacity) : Bool := c.maximum < unlimitedMaximum

/-- No level of the range is allowed. -/
def excludes (c : Capacity) (l : Load) : Bool := l.violates c.minimum c.maximum

/-- The heights with which an activity keeps the level within the capacity, next to others. -/
def allowedHeights (c : Capacity) (others : Load) : Except Fault Load := do
  return ⟨← Width.w64.sub c.minimum others.high, ← Width.w64.sub c.maximum others.low⟩

end Capacity

/-- Keeps the values of a variable that lie in a range (`restrict_height`). A bound that already
holds is not applied, so that the others lie within the domain and can be mapped back through the
views of the variable. -/
def Propagation.restrict (v : Variable) (range : Load) : Propagation Unit := do
  let lower ← Propagation.lower v
  let upper ← Propagation.upper v
  if range.low > upper || range.high < lower then throw .emptyDomain
  if range.low > lower then Propagation.setBound v .lower (Width.w32.saturate range.low)
  if range.high < upper then Propagation.setBound v .upper (Width.w32.saturate range.high)

end Scheduling
