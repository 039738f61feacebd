import Scheduling.Interval.Basic
import Scheduling.WatchLists

/-!
# Inconsistencies and notes

Why a propagation fails, and what is noted along the way: messages about the reasoning, and what
scripted propagators see.

* `Message.level`, `Message.text`: how a message is shown.
-/

namespace Scheduling

/-- Why the current domains admit no solution (`Inconsistency`). -/
inductive Inconsistency
  /-- A variable has no value left. -/
  | emptyDomain
  /-- The named propagator found a conflict without emptying a domain. -/
  | conflict (propagator : String)
  deriving DecidableEq, Repr

/-- The text of an inconsistency within a message. -/
def Inconsistency.text : Inconsistency → String
  | emptyDomain => "EmptyDomain"
  | conflict propagator =>
    "Conflict(PropagatorConflict \x7b propagator: \"" ++ propagator ++ "\" \x7d)"

/-- The outcome of a propagation (`PropagationStatusCP`). -/
abbrev Status := Except Inconsistency Unit

/-- The importance of a message. -/
inductive Level
  | trace
  | debug
  | warn
  deriving DecidableEq, Repr

/-- What the solver has to say about its reasoning. -/
inductive Message
  /-- Without the interval the level is outside the capacity from `start` up to `stop`. -/
  | needed (i : IntervalId) (start stop : Int)
  /-- The longest stretch of time on which the interval fits. -/
  | fitsAtMost (i : IntervalId) (length : Int)
  /-- The time-table left no place for an optional interval. -/
  | fitsNowhere (i : IntervalId)
  /-- The no-overlap filter left no place for an optional interval. -/
  | unschedulable (i : IntervalId)
  /-- No completion of the domains can leave the capacity. -/
  | capacitySafe
  /-- A propagator failed. -/
  | failed (name : String) (p : PropagatorId) (cause : Inconsistency)
  /-- A failure before any decision. -/
  | infeasible
  /-- A no-overlap over fewer than two intervals. -/
  | noPairs (intervals : Nat)
  /-- A constraint on a usage function without activities. -/
  | noActivities
  deriving DecidableEq, Repr

namespace Message

/-- The importance of each message. -/
def level : Message → Level
  | needed .. | fitsAtMost .. | fitsNowhere .. | unschedulable .. => .trace
  | capacitySafe | failed .. | infeasible | noActivities => .debug
  | noPairs .. => .warn

/-- The text of each message. -/
def text : Message → String
  | needed i start stop => s!"{i.text} is needed during [{start}, {stop})"
  | fitsAtMost i length => s!"{i.text} fits in at most {length} consecutive time units"
  | fitsNowhere i => s!"{i.text} does not fit on the resource and becomes absent"
  | unschedulable i => s!"{i.text} cannot be scheduled on the resource and becomes absent"
  | capacitySafe => "The capacity of the resource cannot be exceeded; deactivating"
  | failed name p cause => s!"{name} ({p.text}) failed: {cause.text}"
  | infeasible => "Conflict at the root; the solver is infeasible"
  | noPairs intervals => s!"No-overlap over {intervals} interval(s) does not constrain anything"
  | noActivities => "The cumulative function has no activities; nothing is posted"

end Message

/-- What a scripted propagator saw. -/
inductive Reading
  /-- The bounds of a variable and whether it is fixed. -/
  | bounds (lower upper : Int) (isFixed : Bool)
  /-- Whether a literal is true, is false, is fixed. -/
  | literal (isTrue isFalse isFixed : Bool)
  /-- The domain of an interval. -/
  | interval (domain : Interval)
  /-- Whether the propagator is active. -/
  | active (isActive : Bool)
  deriving DecidableEq, Repr

/-- What is noted during an operation, in the order in which it happens. -/
inductive Note
  /-- A message about the reasoning. -/
  | message (m : Message)
  /-- A scripted propagator was created. -/
  | created (p : PropagatorId)
  /-- A scripted propagator was run, and saw the given readings. -/
  | observed (p : PropagatorId) (readings : List Reading)
  deriving DecidableEq, Repr

end Scheduling
