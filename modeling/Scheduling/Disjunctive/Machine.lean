import Scheduling.Disjunctive.Filter
import Scheduling.Propagator

/-!
# Machines

Intervals of which at most one executes at a time, filtered all together: once from left to right
and once on the mirrored timeline. An optional interval takes part with an unlimited end, so that it
pushes no other interval, and becomes absent when it is pushed beyond its own latest start. The
model of `NoOverlapGlobalPropagator`.
-/

namespace Scheduling

/-- The direction in which the timeline is read (`Timeline`). On the mirrored timeline times are
negated, so that the earliest start of an interval is the negation of its latest end. -/
inductive Direction
  | forward
  | mirrored
  deriving DecidableEq, Repr

namespace Direction

/-- The earliest start on the timeline (`bounds`). -/
def earliestStart : Direction → Bounds → Int
  | forward, b => b.startMin
  | mirrored, b => -b.endMax

/-- The latest start on the timeline (`latest_start`). -/
def latestStart : Direction → Bounds → Int
  | forward, b => b.startMax
  | mirrored, b => -b.endMin

/-- The latest end on the timeline (`bounds`). -/
def latestEnd : Direction → Bounds → Int
  | forward, b => b.endMax
  | mirrored, b => -b.startMin

/-- Raises the earliest start on the timeline (`tighten_earliest_start`). -/
def raiseStart (d : Direction) (i : IntervalId) (value : Int) : Propagation Unit :=
  match d with
  | forward => Propagation.tighten i .startMin (Width.w32.saturate value)
  | mirrored => Propagation.tighten i .endMax (Width.w32.saturate (-value))

/-- Lowers the latest end on the timeline (`tighten_latest_end`). -/
def lowerEnd (d : Direction) (i : IntervalId) (value : Int) : Propagation Unit :=
  match d with
  | forward => Propagation.tighten i .endMax (Width.w32.saturate value)
  | mirrored => Propagation.tighten i .startMin (Width.w32.saturate (-value))

end Direction

/-- What a pass over the timeline knows about an interval. -/
structure MachineTask where
  interval : IntervalId
  isOptional : Bool
  startMin : Int
  duration : Int
  endMax : Int
  deriving DecidableEq, Repr

/-- Intervals that may not overlap, and which of them were not found absent
(`NoOverlapGlobalPropagator`). -/
structure Machine where
  intervals : Table IntervalId
  active : SparseSet
  deriving DecidableEq, Repr

namespace Machine

/-- The name of the propagator. -/
def name : String := "NoOverlapGlobal"

/-- The latest end with which optional intervals take part (`OPTIONAL_END_MAX`). -/
def optionalEnd : Int := 2305843009213693951

/-- Takes the absent intervals at the positions below the given one out of the active set
(`remove_absent_intervals`). -/
def dropAbsent : Nat → Machine → StateT Store (Except Fault) Machine
  | 0, m => return m
  | position + 1, m => do
    let s ← get
    let i ← m.intervals.read (← m.active.get position)
    if (← s.domains.interval i).isAbsent then
      let (active, cells) ← m.active.removeAt position s.cells
      set { s with cells }
      dropAbsent position { m with active }
    else dropAbsent position m

/-- The task of an interval on a timeline; absent intervals have none. -/
def task? (d : Direction) (i : IntervalId) (v : Interval) : Option MachineTask :=
  if v.isAbsent then none
  else some {
    interval := i
    isOptional := v.isOptional
    startMin := d.earliestStart v.toBounds
    duration := v.lengthMin
    endMax := if v.isOptional then optionalEnd else d.latestEnd v.toBounds }

/-- The tasks of the active intervals on a timeline (`snapshot`). -/
def tasks (m : Machine) (d : Direction) : Propagation (List MachineTask) := do
  let members ← m.active.members (← get).cells
  members.filterMapM fun index => do
    let i ← m.intervals.read index
    return task? d i (← Propagation.interval i)

/-- Applies what the filter found about a task. -/
def apply (d : Direction) (task : MachineTask) (startMin endMax : Int) : Propagation Unit := do
  let v ← Propagation.interval task.interval
  if startMin > task.startMin && task.isOptional && startMin > d.latestStart v.toBounds then
    Propagation.say (.unschedulable task.interval)
    Propagation.update task.interval .absent
  else do
    if startMin > task.startMin then d.raiseStart task.interval startMin
    if !task.isOptional && endMax < task.endMax then d.lowerEnd task.interval endMax

/-- The given tasks as input of the filter. -/
def toTasks (tasks : List MachineTask) : Tasks tasks.length where
  startMin := Vector.ofFn fun k => tasks[k].startMin
  duration := Vector.ofFn fun k => tasks[k].duration
  endMax := Vector.ofFn fun k => tasks[k].endMax

/-- Runs the filter on a timeline and applies its result (`filter_on`). -/
def filterOn (m : Machine) (d : Direction) : Propagation Unit := do
  let tasks ← m.tasks d
  match ← (toTasks tasks).filter with
  | (.unchanged, _) => return
  | (.infeasible, _) => Propagation.conflict name
  | (.changed, filtered) =>
    (List.finRange tasks.length).forM fun k =>
      apply d tasks[k] filtered.startMin[k] filtered.endMax[k]

/-- Filters in both directions, while there are at least two active intervals (`propagate`). -/
def propagate (m : Machine) (context : Context) : Propagation Unit := do
  if (← m.active.length (← get).cells) < 2 then Propagation.setActive context false
  else do
    m.filterOn .forward
    m.filterOn .mirrored

/-- One run. -/
def run (context : Context) (m : Machine) : StateT Store (Except Fault) (Machine × Status) := do
  let m ← dropAbsent (← m.active.length (← get).cells) m
  return (m, ← (m.propagate context).run)

/-- Waits for any change of the intervals (`create`). -/
def blueprint (intervals : List IntervalId) : Blueprint Machine where
  watches := intervals.map fun i => .interval i .anyInterval
  cells := [Int.ofNat intervals.length]
  build _ cell := ⟨.ofList intervals, .full intervals.length cell⟩
  notes _ := []

end Machine

instance : Propagator Machine where
  name _ := Machine.name
  priority _ := .low
  run := Machine.run

end Scheduling
