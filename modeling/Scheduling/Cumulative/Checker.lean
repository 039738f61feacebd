import Scheduling.Cumulative.Activity
import Scheduling.Cumulative.FixedSchedule

/-!
# The checker

A propagator that does nothing until all activities of a resource are fixed, and then tests the
level. The model of `GeneralizedCumulativeChecker`.
-/

namespace Scheduling

/-- The activities and the capacity of a resource (`GeneralizedCumulativeChecker`). -/
structure Checker where
  activities : List Activity
  capacity : Capacity
  deriving DecidableEq, Repr

namespace Checker

/-- The name of the propagator. -/
def name : String := "GeneralizedCumulativeChecker"

/-- Every activity is fixed; the activities after the first one that is not are not looked at. -/
def allFixed (d : Domains) : List Activity → Except Fault Bool
  | [] => return true
  | a :: rest => do if ← a.isFixed d then allFixed d rest else return false

/-- The fixed activity, if the activity is present. -/
def fixed? (d : Domains) (a : Activity) : Except Fault (Option FixedActivity) := do
  let v ← d.interval a.interval
  if v.isPresent then return some ⟨v.startMin, v.endMin, ← a.height.lower d⟩ else return none

/-- One run (`propagate`). -/
def propagate (c : Checker) : Propagation Unit := do
  if ← Propagation.inspect fun d => allFixed d c.activities then
    let schedule : FixedSchedule ← Propagation.inspect fun d => c.activities.filterMapM (fixed? d)
    if !(← schedule.isWithin c.capacity.minimum c.capacity.maximum) then
      Propagation.conflict name

/-- Waits for any change of the activities (`create`). -/
def blueprint (c : Checker) : Blueprint Checker := .plain (c.activities.flatMap Activity.watches) c

end Checker

instance : Propagator Checker where
  name _ := Checker.name
  priority _ := .veryLow
  run _ c := do return (c, ← c.propagate.run)

end Scheduling
