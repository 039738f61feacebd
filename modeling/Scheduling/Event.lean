import Scheduling.Interval.Basic

/-!
# Domain events

What can happen to the domain of a variable, for propagators to wait for. For an interval, a raised
minimum of any kind is `Event.lowerBound` and a lowered maximum of any kind `Event.upperBound`. The
model of `DomainEvents`.

* `Interval.eventsTo`: the events of a change of an interval, in the order in which they are
  recorded.
-/

namespace Scheduling

/-- The key of an integer variable (`DomainId`). -/
structure IntegerId where
  index : Nat
  deriving DecidableEq, Repr

/-- The key of an interval variable (`IntervalVariable`). -/
structure IntervalId where
  index : Nat
  deriving DecidableEq, Repr

/-- The text form of an integer variable. -/
def IntegerId.text (x : IntegerId) : String := s!"x{x.index}"

/-- The text form of an interval variable. -/
def IntervalId.text (i : IntervalId) : String := s!"i{i.index}"

/-- A variable on which an event happens (`Watched`). -/
inductive Watched
  | integer (x : IntegerId)
  | interval (i : IntervalId)
  deriving DecidableEq, Repr

/-- The text form of a watched variable. -/
def Watched.text : Watched → String
  | integer x => x.text
  | interval i => i.text

/-- A change to a domain (`DomainEvent`). -/
inductive Event
  /-- The domain became a single value. -/
  | assign
  /-- A minimum rose. -/
  | lowerBound
  /-- A maximum fell. -/
  | upperBound
  /-- An optional interval became present or absent. -/
  | presence
  deriving DecidableEq, Repr

/-- The event as seen through a view that reverses the order of the values. -/
def Event.reversed : Event → Event
  | lowerBound => upperBound
  | upperBound => lowerBound
  | other => other

/-- A set of events, listed without repetition (`DomainEvents`). -/
abbrev EventSet := List Event

namespace EventSet

/-- Both bounds (`BOUNDS`). -/
def bounds : EventSet := [.lowerBound, .upperBound]

/-- Minima only (`LOWER_BOUND`). -/
def lowerBound : EventSet := [.lowerBound]

/-- Maxima only (`UPPER_BOUND`). -/
def upperBound : EventSet := [.upperBound]

/-- Only the assignment of a single value (`ASSIGN`). -/
def assign : EventSet := [.assign]

/-- Only the presence of an interval (`PRESENCE`). -/
def presence : EventSet := [.presence]

/-- Bounds and presence of an interval (`ANY_INTERVAL`). -/
def anyInterval : EventSet := [.lowerBound, .upperBound, .presence]

/-- The events as seen through a view that reverses the order of the values. -/
def reversed (events : EventSet) : EventSet := events.map Event.reversed

end EventSet

/-- Some minimum is greater than before. -/
def Bounds.raisedFrom (new old : Bounds) : Bool :=
  new.startMin > old.startMin || new.endMin > old.endMin || new.lengthMin > old.lengthMin

/-- Some maximum is less than before. -/
def Bounds.loweredFrom (new old : Bounds) : Bool :=
  new.startMax < old.startMax || new.endMax < old.endMax || new.lengthMax < old.lengthMax

/-- The events of a change from one domain of an interval to another (`record_interval_events`). An
interval that becomes absent reports nothing but its presence. -/
def Interval.eventsTo (old new : Interval) : List Event :=
  let presence := if old.presence = new.presence then [] else [Event.presence]
  if new.isAbsent then presence
  else presence ++
    (if new.toBounds.raisedFrom old.toBounds then [.lowerBound] else []) ++
    (if new.toBounds.loweredFrom old.toBounds then [.upperBound] else []) ++
    (if new.isFixed && !old.isFixed then [.assign] else [])

@[simp] theorem Event.reversed_reversed (e : Event) : e.reversed.reversed = e := by
  cases e <;> rfl

@[simp] theorem EventSet.mem_reversed {events : EventSet} {e : Event} :
    e ∈ events.reversed ↔ e.reversed ∈ events := by
  constructor
  · intro h
    obtain ⟨other, mem, rfl⟩ := List.mem_map.1 h
    simpa using mem
  · intro h
    exact List.mem_map.2 ⟨_, h, by simp⟩

end Scheduling
