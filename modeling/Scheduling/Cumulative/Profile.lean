import Scheduling.Interval.Bounds
import Scheduling.Table

/-!
# Resource profiles

Each activity contributes a range of levels to a resource at every time. Where it certainly
executes, between its latest start and its earliest end, that is the range of its height; elsewhere
between its earliest start and its latest end it may as well contribute nothing. A `Profile` is the
sum of these contributions, as the list of the times at which it changes. The model of `Profile`.

* `ActivityBounds.contributionAt`: the contribution of an activity at a time.
* `Profile.build`: the profile of a list of activities.
* `Profile.segmentContaining`, `Profile.span`: the stretches of time on which the sum is constant.
* `Profile.isConsistent`: whether the level can stay within a capacity where something must execute.
-/

namespace Scheduling

/-- A range of levels (`Load`). -/
structure Load where
  low : Int
  high : Int
  deriving DecidableEq, Repr

namespace Load

/-- No contribution. -/
def zero : Load := ⟨0, 0⟩

/-- No level of the range lies within the capacity (`violates`). -/
def violates (l : Load) (minCapacity maxCapacity : Int) : Bool :=
  l.low > maxCapacity || l.high < minCapacity

/-- The range with a further contribution. -/
def plus (l m : Load) : Except Fault Load := do
  return ⟨← Width.w64.add l.low m.low, ← Width.w64.add l.high m.high⟩

/-- The range without one of its contributions (`without`). -/
def without (l m : Load) : Except Fault Load := do
  return ⟨← Width.w64.sub l.low m.low, ← Width.w64.sub l.high m.high⟩

/-- The range to add in order to take a contribution away (`negate`). -/
def negate (l : Load) : Except Fault Load := do
  return ⟨← Width.w64.neg l.low, ← Width.w64.neg l.high⟩

end Load

/-- What is known about an activity while a profile is used (`ActivityBounds`). -/
structure ActivityBounds extends Bounds where
  heightMin : Int
  heightMax : Int
  isPresent : Bool
  /-- The activity is absent, or present with a known start, end and height. -/
  isFixed : Bool
  deriving DecidableEq, Repr

namespace ActivityBounds

/-- The activity is present and certainly executes from its latest start up to its earliest end
(`has_mandatory_part`). -/
def hasMandatoryPart (a : ActivityBounds) : Bool := a.isPresent && a.startMax < a.endMin

/-- The activity certainly executes at a time (`is_mandatory_at`). -/
def isMandatoryAt (a : ActivityBounds) (time : Int) : Bool :=
  a.hasMandatoryPart && a.startMax ≤ time && time < a.endMin

/-- The contribution where the activity may execute (`possible_contribution`). -/
def possible (a : ActivityBounds) : Load := ⟨min 0 a.heightMin, max 0 a.heightMax⟩

/-- The contribution where the activity certainly executes (`mandatory_contribution`). -/
def mandatory (a : ActivityBounds) : Load := ⟨a.heightMin, a.heightMax⟩

/-- The contribution at a time (`contribution_at`). -/
def contributionAt (a : ActivityBounds) (time : Int) : Load :=
  if a.isMandatoryAt time then a.mandatory
  else if a.startMin ≤ time && time < a.endMax then a.possible
  else .zero

end ActivityBounds

/-- A change of the sum at a time, and of the number of activities that certainly execute
(`Event`). -/
structure Delta where
  time : Int
  load : Load
  overlap : Int
  deriving DecidableEq, Repr

/-- The changes that an activity makes (`push_event`). An activity without room for execution makes
none. -/
def ActivityBounds.deltas (a : ActivityBounds) : Except Fault (List Delta) := do
  if a.startMin ≥ a.endMax then return []
  let around : List Delta := [⟨a.startMin, a.possible, 0⟩, ⟨a.endMax, ← a.possible.negate, 0⟩]
  if !a.hasMandatoryPart then return around
  let extra ← a.mandatory.without a.possible
  return around ++ [⟨a.startMax, extra, 1⟩, ⟨a.endMin, ← extra.negate, -1⟩]

/-- The sum from a time up to the time of the next point, and the number of activities that
certainly execute there (`TimePoint`). -/
structure TimePoint where
  time : Int
  load : Load
  overlapping : Nat
  deriving DecidableEq, Repr

/-- The points of a profile in ascending order of their times (`Profile`). -/
structure Profile where
  points : Table TimePoint
  deriving DecidableEq, Repr

namespace Profile

/-- Sums up changes in ascending order of their times; each time gets one point. -/
def accumulate (load : Load) (overlap : Int) : List Delta → Except Fault (List TimePoint)
  | [] => return []
  | d :: rest => do
    let load ← load.plus d.load
    let overlap := overlap + d.overlap
    let later ← accumulate load overlap rest
    if rest.head?.map Delta.time = some d.time then return later
    else return ⟨d.time, load, overlap.toNat⟩ :: later

/-- The profile of a list of activities (`build`). -/
def build (activities : List ActivityBounds) : Except Fault Profile := do
  let deltas ← activities.mapM ActivityBounds.deltas
  let sorted := deltas.flatten.mergeSort fun d e => decide (d.time ≤ e.time)
  return ⟨.ofList (← accumulate .zero 0 sorted)⟩

/-- The number of segments, one between each two neighbouring points (`num_segments`). -/
def segments (p : Profile) : Nat := p.points.size - 1

/-- The point at which a segment starts (`point`). -/
def point (p : Profile) (segment : Nat) : Except Fault TimePoint := p.points.read segment

/-- The times at which a segment starts and ends (`span`). -/
def span (p : Profile) (segment : Nat) : Except Fault (Int × Int) := do
  return ((← p.points.read segment).time, (← p.points.read (segment + 1)).time)

/-- The segment that contains a time, if that lies between the first and the last point
(`segment_containing`). -/
def segmentContaining (p : Profile) (time : Int) : Nat :=
  (p.points.toList.takeWhile fun point => decide (point.time ≤ time)).length - 1

/-- Wherever some activity certainly executes, a level within the capacity is possible
(`is_consistent`). -/
def isConsistent (p : Profile) (minCapacity maxCapacity : Int) : Bool :=
  p.points.toList.all fun point =>
    point.overlapping == 0 || !point.load.violates minCapacity maxCapacity

end Profile

end Scheduling
