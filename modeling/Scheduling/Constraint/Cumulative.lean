import Scheduling.Usage

/-!
# Cumulative constraints

The level of some activities, or of a usage function, stays within a capacity wherever one of the
activities executes. A constraint on a usage function can be extended by a window, which is an
activity of height zero: the level then has to stay within the capacity during the window as well.
Models of `GeneralizedCumulative` and `CumulFunctionConstraint`, as they are posted.
-/

namespace Scheduling

/-- The level of activities stays between an optional minimum and an optional maximum
(`GeneralizedCumulative`). -/
structure Cumulative where
  activities : List Activity
  minimum : Option Int
  maximum : Option Int
  options : ResourceOptions
  /-- The level is also tested once all activities are fixed. -/
  withChecker : Bool
  deriving DecidableEq, Repr

namespace Cumulative

/-- The capacity with the given limits; limits beyond the unlimited ones do not count
(`capacity_bounds`). -/
def capacity (minimum maximum : Option Int) : Except ArgumentError Capacity := do
  if let (some least, some most) := (minimum, maximum) then
    if least > most then throw (.invalidCapacity least most)
  if let some most := maximum then
    if most < 0 then throw (.negativeCapacity most)
  return {
    minimum := max (minimum.getD Capacity.unlimitedMinimum) Capacity.unlimitedMinimum
    maximum := min (maximum.getD Capacity.unlimitedMaximum) Capacity.unlimitedMaximum }

/-- Posts the constraint (`post`). -/
def post (c : Cumulative) : Posting Rule Unit := do
  match capacity c.minimum c.maximum with
  | .error cause => Posting.refuse cause
  | .ok capacity => do
    if c.withChecker then
      let checker : Checker := ⟨c.activities, capacity⟩
      let _ ← Posting.add (checker.blueprint.map Rule.checker)
    let _ ← Posting.add ((Resource.blueprint c.activities capacity c.options).map Rule.resource)

end Cumulative

/-- Times at which a constraint on a usage function holds in any case (`Window`). -/
inductive Window
  /-- While the interval executes. -/
  | interval (i : IntervalId)
  /-- From `start` up to `stop`. -/
  | range (start stop : Int)
  deriving DecidableEq, Repr

namespace Window

/-- The interval of a window. -/
def toInterval : Window → Posting Rule IntervalId
  | interval i => return i
  | range start stop => do
    if start ≥ stop then Posting.refuse (.emptyWindow start stop)
    let length ← Width.w32.sub stop start
    (Session.newFixedInterval start length : Session Rule IntervalId)

/-- The activity of a window: it executes without changing the level. -/
def toActivity (w : Window) : Posting Rule Activity := do
  let i ← w.toInterval
  let zero ← (Session.newInteger 0 0 : Session Rule IntegerId)
  return ⟨i, .affine (.plain zero) ⟨1, 0⟩⟩

end Window

/-- The level of a usage function stays between an optional minimum and an optional maximum
(`CumulFunctionConstraint`). -/
structure UsageConstraint where
  usage : Usage
  window : Option Window
  minimum : Option Int
  maximum : Option Int
  options : ResourceOptions
  deriving DecidableEq, Repr

namespace UsageConstraint

/-- The function is at most `maximum` (`le`). -/
def atMost (usage : Usage) (maximum : Int) : UsageConstraint :=
  ⟨usage, none, none, some maximum, .all⟩

/-- The function is at least `minimum` (`ge`). -/
def atLeast (usage : Usage) (minimum : Int) : UsageConstraint :=
  ⟨usage, none, some minimum, none, .all⟩

/-- The function is between two limits, also throughout a window (`always_in` and
`always_in_range`). -/
def within (usage : Usage) (window : Window) (minimum maximum : Int) : UsageConstraint :=
  ⟨usage, some window, some minimum, some maximum, .all⟩

/-- The activities of the constraint, with that of its window. -/
def activities (c : UsageConstraint) : Posting Rule (List Activity) := do
  match c.window with
  | some w => return c.usage.activities true ++ [← w.toActivity]
  | none => return c.usage.activities true

/-- Posts the constraint (`post`). -/
def post (c : UsageConstraint) : Posting Rule Unit := do
  let activities ← c.activities
  if activities.isEmpty then (Session.say .noActivities : Session Rule Unit)
  else Cumulative.post ⟨activities, c.minimum, c.maximum, c.options, false⟩

/-- Posts constraints until one is refused. -/
def postAll (constraints : List UsageConstraint) : Posting Rule Unit := constraints.forM post

end UsageConstraint

end Scheduling
