import Scheduling.Cumulative.Activity

/-!
# Time-table filtering

An activity that is not fixed is held against the profile of all activities, without its own
contribution. All rules use the bounds that the activity had when the profile was built. The model
of `time_table`.

* `TimeTable.earliestStart`, `TimeTable.latestEnd`: the first and the last place of the activity at
  which it overloads no segment that it certainly covers.
* `TimeTable.cover`: the height on the certain part of the activity, and the segments at which the
  level is outside the capacity without it.
* `TimeTable.fit`: the heights that fit some segment, and the longest run of segments that fit.
-/

namespace Scheduling

/-- The profile of the activities of a resource, and its capacity. -/
structure TimeTable where
  profile : Profile
  capacity : Capacity
  deriving DecidableEq, Repr

/-- An activity with its bounds at the time when the profile was built. -/
structure Captured where
  activity : Activity
  bounds : ActivityBounds
  deriving DecidableEq, Repr

/-- Which of the optional rules apply. -/
structure Rules where
  /-- Tighten heights and lengths. -/
  heights : Bool
  /-- Find activities that are needed to stay within the capacity. -/
  needed : Bool
  deriving DecidableEq, Repr

/-- What the segments that an activity can cover say about its height and its length: the hull of
the heights that fit one of them, and the longest and the current run of segments that fit. -/
structure Fit where
  heights : Option Load
  longest : Int
  current : Int
  deriving DecidableEq, Repr

/-- Takes a segment into account that the activity covers from `start` up to `stop`. -/
def Fit.add (f : Fit) (allowed : Load) (heightMin heightMax start stop : Int) : Fit :=
  if allowed.low ≤ heightMax && allowed.high ≥ heightMin then
    let hull := match f.heights with
      | none => allowed
      | some heights => ⟨min heights.low allowed.low, max heights.high allowed.high⟩
    let run := f.current + (stop - start)
    ⟨some hull, max f.longest run, run⟩
  else { f with current := 0 }

namespace TimeTable

/-- The load of a segment without the contribution of an activity (`load_without`). -/
def loadWithout (t : TimeTable) (a : ActivityBounds) (segment : Nat) : Except Fault Load := do
  let point ← t.profile.point segment
  point.load.without (a.contributionAt point.time)

/-- With the activity a segment is outside the capacity, whatever its height
(`is_overloaded_with`). -/
def isOverloadedWith (t : TimeTable) (a : ActivityBounds) (segment : Nat) : Except Fault Bool := do
  let others ← t.loadWithout a segment
  return t.capacity.excludes ⟨others.low + a.heightMin, others.high + a.heightMax⟩

/-- Moves a start past the overloaded segments among the next `left` ones. -/
def pushStart (t : TimeTable) (a : ActivityBounds) : (left segment : Nat) → (start : Int) →
    Except Fault Int
  | 0, _, start => return start
  | left + 1, segment, start => do
    if start > a.startMax then return start
    let (segmentStart, segmentEnd) ← t.profile.span segment
    if max segmentStart start ≥ max a.endMin (start + a.lengthMin) then return start
    if ← t.isOverloadedWith a segment then
      -- Without a least length the activity may end where it starts, and execute nowhere.
      let next := if a.lengthMin > 0 then segmentEnd else min segmentEnd a.endMin
      t.pushStart a left (segment + 1) next
    else t.pushStart a left (segment + 1) start

/-- The earliest start at which no segment is overloaded that the activity certainly covers then
(`earliest_feasible_start`). -/
def earliestStart (t : TimeTable) (a : ActivityBounds) : Except Fault Int :=
  let segment := t.profile.segmentContaining a.startMin
  t.pushStart a (t.profile.segments - segment) segment a.startMin

/-- Moves an end before the overloaded segments among the first `left` ones, from the last one
downwards. -/
def pushEnd (t : TimeTable) (a : ActivityBounds) : (left : Nat) → (stop : Int) → Except Fault Int
  | 0, stop => return stop
  | segment + 1, stop => do
    if stop < a.endMin then return stop
    let (segmentStart, segmentEnd) ← t.profile.span segment
    if min segmentEnd stop ≤ min a.startMax (stop - a.lengthMin) then return stop
    if ← t.isOverloadedWith a segment then
      t.pushEnd a segment
        (if a.lengthMin > 0 then segmentStart else max segmentStart a.startMax)
    else t.pushEnd a segment stop

/-- The latest end at which no segment is overloaded that the activity certainly covers then
(`latest_feasible_end`). -/
def latestEnd (t : TimeTable) (a : ActivityBounds) : Except Fault Int :=
  t.pushEnd a (t.profile.segmentContaining (a.endMax - 1) + 1) a.endMax

/-- Keeps the heights of an activity that are allowed next to others (`tighten_height`). -/
def tightenHeight (t : TimeTable) (a : Activity) (others : Load) : Propagation Unit := do
  Propagation.restrict a.height (← t.capacity.allowedHeights others)

/-- Makes an activity present and executing during a segment. -/
def force (t : TimeTable) (a : Activity) (start stop : Int) (others : Load) : Propagation Unit := do
  Propagation.say (.needed a.interval start stop)
  Propagation.update a.interval .present
  Propagation.tighten a.interval .startMax (Width.w32.saturate start)
  Propagation.tighten a.interval .endMin (Width.w32.saturate stop)
  t.tightenHeight a others

/-- Goes over the next `left` segments: the height has to be allowed where the activity certainly
executes, and the activity is needed where the others alone are outside the capacity. -/
def coverFrom (t : TimeTable) (a : Captured) (rules : Rules) : (left segment : Nat) →
    Propagation Unit
  | 0, _ => return
  | left + 1, segment => do
    let (start, stop) ← t.profile.span segment
    if start ≥ a.bounds.endMax then return
    let point ← t.profile.point segment
    let others ← t.loadWithout a.bounds segment
    if a.bounds.isMandatoryAt point.time then
      if rules.heights then t.tightenHeight a.activity others
    else if rules.needed && point.overlapping > 0 && t.capacity.excludes others then
      t.force a.activity start stop others
    t.coverFrom a rules left (segment + 1)

/-- Goes over the segments from the earliest start to the latest end of an activity
(`filter_over_segments`). -/
def cover (t : TimeTable) (a : Captured) (rules : Rules) : Propagation Unit :=
  let segment := t.profile.segmentContaining a.bounds.startMin
  t.coverFrom a rules (t.profile.segments - segment) segment

/-- What the next `left` segments say about an activity that lies between `windowStart` and
`windowEnd` with a height from `heightMin` to `heightMax`. -/
def fitFrom (t : TimeTable) (a : ActivityBounds) (windowStart windowEnd heightMin heightMax : Int) :
    (left segment : Nat) → Fit → Except Fault Fit
  | 0, _, f => return f
  | left + 1, segment, f => do
    let (start, stop) ← t.profile.span segment
    if start ≥ windowEnd then return f
    let others ← t.loadWithout a segment
    let allowed ← t.capacity.allowedHeights others
    let f := f.add allowed heightMin heightMax (max start windowStart) (min stop windowEnd)
    t.fitFrom a windowStart windowEnd heightMin heightMax left (segment + 1) f

/-- For an activity that may move: it is no longer than the longest run of segments that it fits,
and its height fits one of them (`filter_height_and_length`). -/
def fit (t : TimeTable) (a : Captured) : Propagation Unit := do
  let v ← Propagation.interval a.activity.interval
  let heightMin ← Propagation.lower a.activity.height
  let heightMax ← Propagation.upper a.activity.height
  if v.startMin ≥ v.endMax then return
  let segment := t.profile.segmentContaining v.startMin
  let f ← t.fitFrom a.bounds v.startMin v.endMax heightMin heightMax
    (t.profile.segments - segment) segment ⟨none, 0, 0⟩
  if f.longest < v.lengthMax then
    Propagation.say (.fitsAtMost a.activity.interval f.longest)
    Propagation.tighten a.activity.interval .lengthMax (Width.w32.saturate f.longest)
  match f.heights with
  | some heights => Propagation.restrict a.activity.height heights
  | none => return

/-- Moves the start and the end of an activity to the first and the last place where it fits. -/
def place (t : TimeTable) (a : Captured) : Propagation Unit := do
  let start ← t.earliestStart a.bounds
  if start > a.bounds.startMin then
    Propagation.tighten a.activity.interval .startMin (Width.w32.saturate start)
  let stop ← t.latestEnd a.bounds
  if stop < a.bounds.endMax then
    Propagation.tighten a.activity.interval .endMax (Width.w32.saturate stop)

/-- Applies the rules to an activity (`time_table`). -/
def filter (t : TimeTable) (rules : Rules) (a : Captured) : Propagation Unit := do
  if a.bounds.startMin ≥ a.bounds.endMax then return
  t.place a
  if (← Propagation.interval a.activity.interval).isAbsent then
    Propagation.say (.fitsNowhere a.activity.interval)
  else do
    if rules.heights || rules.needed then t.cover a rules
    if rules.heights && !a.bounds.hasMandatoryPart && a.bounds.lengthMin > 0 then
      if (← Propagation.interval a.activity.interval).isPresent then t.fit a

end TimeTable

end Scheduling
